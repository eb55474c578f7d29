import Tweezer.KeyList

/-!
# The MANIFEST of a version set

`VersionSet::LogAndApply` for one writer at a time, with the files that `VersionBuilder` keeps of
each column family and the snapshot that `WriteCurrentStateToManifest` puts into a new MANIFEST.
-/

namespace Tweezer

/-- What a version set knows of a column family. -/
structure ColumnFamilyData where
  id : UInt32
  name : Bytes
  comparator : Bytes
  logNumber : UInt64
  /-- The files of the current version with their levels. -/
  files : List (Int32 × FileMetaData)
  deriving DecidableEq

namespace ColumnFamilyData

/-- `VersionBuilder::ApplyFileDeletion`. -/
def applyFileDeletion (files : List (Int32 × FileMetaData)) (deleted : Int32 × UInt64) :
    Option (List (Int32 × FileMetaData)) :=
  if files.any (fun f => f.1 = deleted.1 ∧ f.2.fd.getNumber = deleted.2) then
    some (files.filter fun f => f.2.fd.getNumber ≠ deleted.2)
  else none

/-- `VersionBuilder::ApplyFileAddition`. -/
def applyFileAddition (files : List (Int32 × FileMetaData)) (added : Int32 × FileMetaData) :
    Option (List (Int32 × FileMetaData)) :=
  if files.any (fun f => f.2.fd.getNumber = added.2.fd.getNumber) then none
  else some (files ++ [added])

/-- `VersionBuilder::Apply`; none where the status is not OK. -/
def applyFiles (files : List (Int32 × FileMetaData)) (edit : EditFields) :
    Option (List (Int32 × FileMetaData)) := do
  let files ← edit.deletedFiles.val.foldlM applyFileDeletion files
  edit.newFiles.foldlM applyFileAddition files

/-- The edits of a snapshot: what the column family is, and what its files are. -/
def snapshot (cfd : ColumnFamilyData) : List VersionEdit :=
  let info : EditFields :=
    if cfd.id ≠ 0 then
      { comparator := some cfd.comparator, columnFamilyAdd := some cfd.name, columnFamily := cfd.id }
    else { comparator := some cfd.comparator }
  let files : EditFields :=
    { columnFamily := cfd.id, newFiles := cfd.files, logNumber := some cfd.logNumber }
  [{ VersionEdit.new with toEditFields := info }, { VersionEdit.new with toEditFields := files }]

end ColumnFamilyData

/-- The options that the MANIFEST depends on. -/
structure ManifestOptions where
  writeDbidToManifest : Bool
  /-- Whether a MANIFEST of these edits is larger than `max_manifest_file_size`. -/
  manifestFull : List VersionEdit → Bool

/-- A version set, with the edits of the MANIFEST that CURRENT names. -/
structure VersionSet where
  columnFamilies : List ColumnFamilyData
  maxColumnFamily : UInt32
  nextFileNumber : UInt64
  lastSequence : UInt64
  prevLogNumber : UInt64
  dbId : Bytes
  /-- Whether the MANIFEST is open for more edits. -/
  descriptorLog : Bool
  manifest : List VersionEdit

namespace VersionSet

variable (o : ManifestOptions) (vs : VersionSet)

def getColumnFamily (id : UInt32) : Option ColumnFamilyData :=
  vs.columnFamilies.find? (·.id = id)

/-- `MarkFileNumberUsed`. -/
def markFileNumberUsed (number : UInt64) : VersionSet :=
  if vs.nextFileNumber ≤ number then { vs with nextFileNumber := number + 1 } else vs

/-- `WriteCurrentStateToManifest`. -/
def writeCurrentStateToManifest : List VersionEdit :=
  (if o.writeDbidToManifest then [{ VersionEdit.new with dbId := some vs.dbId }] else []) ++
    vs.columnFamilies.flatMap ColumnFamilyData.snapshot

/-- What `LogAndApplyCFHelper` and `LogAndApplyHelper` put into an edit. -/
def prepareEdit (edit : VersionEdit) : VersionEdit :=
  let edit := { edit with
    nextFileNumber := some vs.nextFileNumber, lastSequence := some vs.lastSequence }
  if edit.isColumnFamilyDrop then { edit with maxColumnFamily := some vs.maxColumnFamily }
  else if edit.columnFamilyAdd.isSome then edit
  else { edit with prevLogNumber := some (edit.prevLogNumber.getD vs.prevLogNumber) }

/-- What an edit gets that is the first of a new MANIFEST. -/
def prepareNewManifest (edit : VersionEdit) : VersionEdit :=
  { edit with
    nextFileNumber := some (vs.nextFileNumber + 1)
    maxColumnFamily := if vs.maxColumnFamily > 0 then some vs.maxColumnFamily
      else edit.maxColumnFamily }

/-- The new versions. The comparator of a new column family is the one of its options. -/
def install (edit : VersionEdit) (files : List (Int32 × FileMetaData)) : VersionSet :=
  let vs := { vs with prevLogNumber := edit.prevLogNumber.getD 0 }
  match edit.columnFamilyAdd with
  | some name =>
      { vs with
        columnFamilies := vs.columnFamilies ++
          [⟨edit.columnFamily, name, edit.comparator.getD [], edit.logNumber.getD 0, []⟩]
        maxColumnFamily := max vs.maxColumnFamily edit.columnFamily }
  | none =>
      if edit.isColumnFamilyDrop then
        { vs with columnFamilies := vs.columnFamilies.filter (·.id ≠ edit.columnFamily) }
      else
        { vs with
          columnFamilies := vs.columnFamilies.map fun cfd =>
            if cfd.id = edit.columnFamily then
              { cfd with
                files := files
                logNumber := if edit.logNumber.getD 0 ≠ 0 then edit.logNumber.getD 0
                  else cfd.logNumber }
            else cfd }

/-- What goes wrong in a call: with the record not in the MANIFEST, or with the record there. -/
inductive LogFault where
  | before
  | after
  deriving DecidableEq

/-- `LogAndApply`: whether the status is OK. A new MANIFEST that cannot be written is deleted
again; one that could not be added to is not added to any more. -/
def logAndApply (fault : Option LogFault) (edit : VersionEdit) : Bool × VersionSet :=
  let files := ((vs.getColumnFamily edit.columnFamily).map (·.files)).getD []
  match (if edit.columnFamilyAdd.isSome ∨ edit.isColumnFamilyDrop then some files
    else ColumnFamilyData.applyFiles files edit.toEditFields) with
  | none => (false, vs)
  | some files =>
      let edit := vs.prepareEdit edit
      if vs.descriptorLog = false ∨ o.manifestFull vs.manifest then
        let edit := vs.prepareNewManifest edit
        let vs := { vs with nextFileNumber := vs.nextFileNumber + 1 }
        if fault.isSome then (false, { vs with descriptorLog := false })
        else
          (true, { vs with
            descriptorLog := true
            manifest := vs.writeCurrentStateToManifest o ++ [edit] }.install edit files)
      else
        match fault with
        | some .before => (false, { vs with descriptorLog := false })
        | some .after => (false, { vs with descriptorLog := false, manifest := vs.manifest ++ [edit] })
        | none => (true, { vs with manifest := vs.manifest ++ [edit] }.install edit files)

end VersionSet

/-! ### Replaying the files -/

/-- What an edit does to the files, each with its column family and level. -/
def VersionEdit.applyToFiles (files : List (UInt32 × Int32 × FileMetaData)) (e : VersionEdit) :
    List (UInt32 × Int32 × FileMetaData) :=
  if e.columnFamilyAdd.isSome then files
  else if e.isColumnFamilyDrop then files.filter (·.1 ≠ e.columnFamily)
  else
    files.filter (fun f => ¬ (f.1 = e.columnFamily ∧
      (f.2.1, f.2.2.fd.getNumber) ∈ e.deletedFiles.val)) ++ e.newFiles.map (e.columnFamily, ·)

/-- The files that replaying a MANIFEST leaves. -/
def replayFiles (manifest : List VersionEdit) : List (UInt32 × Int32 × FileMetaData) :=
  manifest.foldl VersionEdit.applyToFiles []

theorem replayFiles_append (manifest edits : List VersionEdit) :
    replayFiles (manifest ++ edits) = edits.foldl VersionEdit.applyToFiles (replayFiles manifest) :=
  List.foldl_append ..

/-- An edit that takes nothing away. -/
structure VersionEdit.Additive (e : VersionEdit) : Prop where
  deletedFiles : e.deletedFiles.val = []
  isColumnFamilyDrop : e.isColumnFamilyDrop = false

namespace VersionEdit.Additive

variable {e : VersionEdit} {files : List (UInt32 × Int32 × FileMetaData)}

theorem applyToFiles (h : e.Additive) : e.applyToFiles files =
    files ++ if e.columnFamilyAdd.isSome then [] else e.newFiles.map (e.columnFamily, ·) := by
  have hdrop : ¬ e.isColumnFamilyDrop = true := by simp [h.isColumnFamilyDrop]
  unfold VersionEdit.applyToFiles
  rw [if_neg hdrop]
  by_cases hadd : e.columnFamilyAdd.isSome = true
  · rw [if_pos hadd, if_pos hadd, List.append_nil]
  · rw [if_neg hadd, if_neg hadd]
    simp [h.deletedFiles]

theorem mem_foldl {f : UInt32 × Int32 × FileMetaData} (edits : List VersionEdit)
    (h : ∀ e ∈ edits, e.Additive) (hf : f ∈ files) :
    f ∈ edits.foldl VersionEdit.applyToFiles files := by
  induction edits generalizing files with
  | nil => exact hf
  | cons e edits ih =>
      rw [List.foldl_cons]
      apply ih fun e he => h e (List.mem_cons_of_mem _ he)
      rw [(h e (List.mem_cons_self ..)).applyToFiles]
      exact List.mem_append_left _ hf

/-- What an edit adds is there at the end. -/
theorem mem_replayFiles {manifest : List VersionEdit} (h : ∀ e ∈ manifest, e.Additive)
    (he : e ∈ manifest) (hadd : e.columnFamilyAdd = none) {f : Int32 × FileMetaData}
    (hf : f ∈ e.newFiles) : (e.columnFamily, f) ∈ replayFiles manifest := by
  obtain ⟨before, after, rfl⟩ := List.append_of_mem he
  rw [replayFiles_append, List.foldl_cons]
  apply mem_foldl after fun e he => h e (by simp [he])
  rw [(h e he).applyToFiles, hadd]
  exact List.mem_append_right _ (List.mem_map_of_mem hf)

end VersionEdit.Additive

/-! ### What a MANIFEST without keys and files leaves out -/

/-- The edit in the MANIFEST is the one of the caller but for the numbers that it gets. -/
structure VersionEdit.Carries (e edit : VersionEdit) : Prop where
  isSstKey : e.isSstKey = edit.isSstKey
  deletedFiles : e.deletedFiles = edit.deletedFiles
  newFiles : e.newFiles = edit.newFiles
  columnFamily : e.columnFamily = edit.columnFamily
  columnFamilyAdd : e.columnFamilyAdd = edit.columnFamilyAdd
  isColumnFamilyDrop : e.isColumnFamilyDrop = edit.isColumnFamilyDrop

theorem VersionEdit.Carries.additive {e edit : VersionEdit} (h : e.Carries edit)
    (hedit : edit.Additive) : e.Additive :=
  ⟨by rw [h.deletedFiles, hedit.deletedFiles], by rw [h.isColumnFamilyDrop, hedit.isColumnFamilyDrop]⟩

theorem ColumnFamilyData.snapshot_spec {cfd : ColumnFamilyData} {e : VersionEdit}
    (he : e ∈ cfd.snapshot) :
    e.isSstKey = false ∧ e.Additive ∧ (e.newFiles = [] ∨ e.newFiles = cfd.files) := by
  unfold ColumnFamilyData.snapshot at he
  simp only [List.mem_cons, List.not_mem_nil, or_false] at he
  rcases he with rfl | rfl
  · refine ⟨rfl, ⟨?_, ?_⟩, Or.inl ?_⟩
    · split_ifs <;> rfl
    · split_ifs <;> rfl
    · split_ifs <;> rfl
  · exact ⟨rfl, ⟨rfl, rfl⟩, Or.inr rfl⟩

namespace VersionSet

variable {o : ManifestOptions} {vs vs' : VersionSet} {edit : VersionEdit} {ok : Bool}
  {fault : Option LogFault}

theorem mem_writeCurrentState {e : VersionEdit} (he : e ∈ vs.writeCurrentStateToManifest o) :
    e.isSstKey = false ∧ e.Additive ∧
      (e.newFiles = [] ∨ ∃ cfd ∈ vs.columnFamilies, e.newFiles = cfd.files) := by
  unfold writeCurrentStateToManifest at he
  rcases List.mem_append.mp he with hid | hcfd
  · split_ifs at hid
    · obtain rfl := List.mem_singleton.mp hid
      exact ⟨rfl, ⟨rfl, rfl⟩, Or.inl rfl⟩
    · cases hid
  · obtain ⟨cfd, hcfd, he⟩ := List.mem_flatMap.mp hcfd
    obtain ⟨hkey, hadditive, hfiles⟩ := ColumnFamilyData.snapshot_spec he
    exact ⟨hkey, hadditive, hfiles.imp_right fun h => ⟨cfd, hcfd, h⟩⟩

theorem carries_prepareEdit : (vs.prepareEdit edit).Carries edit := by
  unfold prepareEdit
  dsimp only
  split_ifs <;> exact ⟨rfl, rfl, rfl, rfl, rfl, rfl⟩

theorem install_manifest (e : VersionEdit) (files : List (Int32 × FileMetaData)) :
    (vs.install e files).manifest = vs.manifest := by
  unfold install
  dsimp only
  split
  · rfl
  · split_ifs <;> rfl

/-- What a call can do to the MANIFEST and to the column families. -/
theorem logAndApply_cases (h : vs.logAndApply o fault edit = (ok, vs')) :
    (ok = false ∧ vs'.columnFamilies = vs.columnFamilies ∧
      (vs'.manifest = vs.manifest ∨ ∃ e, e.Carries edit ∧ vs'.manifest = vs.manifest ++ [e])) ∨
    (ok = true ∧ ∃ e files, e.Carries edit ∧
      (edit.columnFamilyAdd = none → edit.isColumnFamilyDrop = false →
        ColumnFamilyData.applyFiles
          (((vs.getColumnFamily edit.columnFamily).map (·.files)).getD []) edit.toEditFields =
            some files) ∧
      (vs'.manifest = vs.manifest ++ [e] ∨
        vs'.manifest = vs.writeCurrentStateToManifest o ++ [e]) ∧
      ∃ vs₁ : VersionSet, vs₁.columnFamilies = vs.columnFamilies ∧ vs' = vs₁.install e files) := by
  have hcarries : (vs.prepareEdit edit).Carries edit := carries_prepareEdit
  have hnew : (vs.prepareNewManifest (vs.prepareEdit edit)).Carries edit :=
    ⟨hcarries.isSstKey, hcarries.deletedFiles, hcarries.newFiles, hcarries.columnFamily,
      hcarries.columnFamilyAdd, hcarries.isColumnFamilyDrop⟩
  unfold logAndApply at h
  dsimp only at h
  split at h
  · cases h
    exact Or.inl ⟨rfl, rfl, Or.inl rfl⟩
  · rename_i files hfiles
    have happly : edit.columnFamilyAdd = none → edit.isColumnFamilyDrop = false →
        ColumnFamilyData.applyFiles
          (((vs.getColumnFamily edit.columnFamily).map (·.files)).getD []) edit.toEditFields =
            some files := by
      intro hadd hdrop
      rwa [if_neg (by simp [hadd, hdrop])] at hfiles
    by_cases hfull : vs.descriptorLog = false ∨ o.manifestFull vs.manifest
    · rw [if_pos hfull] at h
      by_cases hfault : fault.isSome = true
      · rw [if_pos hfault] at h
        cases h
        exact Or.inl ⟨rfl, rfl, Or.inl rfl⟩
      · rw [if_neg hfault] at h
        obtain ⟨rfl, rfl⟩ := Prod.mk.inj h
        refine Or.inr ⟨rfl, _, files, hnew, happly, Or.inr (install_manifest ..), _, ?_, rfl⟩
        rfl
    · rw [if_neg hfull] at h
      match fault with
      | some .before =>
          cases h
          exact Or.inl ⟨rfl, rfl, Or.inl rfl⟩
      | some .after =>
          cases h
          exact Or.inl ⟨rfl, rfl, Or.inr ⟨_, hcarries, rfl⟩⟩
      | none =>
          obtain ⟨rfl, rfl⟩ := Prod.mk.inj h
          refine Or.inr ⟨rfl, _, files, hcarries, happly, Or.inl (install_manifest ..), _, ?_, rfl⟩
          rfl

/-- No edit of the MANIFEST has a key of a table. -/
def Keyless (vs : VersionSet) : Prop := ∀ e ∈ vs.manifest, e.isSstKey = false

theorem Keyless.logAndApply (h : vs.Keyless) (hedit : edit.isSstKey = false)
    (hcall : vs.logAndApply o fault edit = (ok, vs')) : vs'.Keyless := by
  have hsnapshot : ∀ e ∈ vs.writeCurrentStateToManifest o, e.isSstKey = false :=
    fun e he => (mem_writeCurrentState he).1
  unfold Keyless
  have hconcat : ∀ l : List VersionEdit, (∀ e ∈ l, e.isSstKey = false) → ∀ e', e'.Carries edit →
      ∀ e ∈ l ++ [e'], e.isSstKey = false := by
    intro l hl e' he' e he
    rcases List.mem_append.mp he with he | he
    · exact hl e he
    · rw [List.mem_singleton.mp he, he'.isSstKey, hedit]
  rcases logAndApply_cases hcall with ⟨-, -, hm | ⟨e, he, hm⟩⟩ | ⟨-, e, -, he, -, hm | hm, -⟩
  · rw [hm]
    exact h
  · rw [hm]
    exact hconcat _ h e he
  · rw [hm]
    exact hconcat _ h e he
  · rw [hm]
    exact hconcat _ hsnapshot e he

/-- There are no files, neither in a version nor in an edit of the MANIFEST. -/
structure Fileless (vs : VersionSet) : Prop where
  versions : ∀ cfd ∈ vs.columnFamilies, cfd.files = []
  manifest : ∀ e ∈ vs.manifest, e.newFiles = []

theorem mem_install_columnFamilies {e : VersionEdit} {files : List (Int32 × FileMetaData)}
    {cfd : ColumnFamilyData} (hcfd : cfd ∈ (vs.install e files).columnFamilies) :
    cfd ∈ vs.columnFamilies ∨ cfd.files = [] ∨ e.columnFamilyAdd = none ∧
      e.isColumnFamilyDrop = false ∧ cfd.id = e.columnFamily ∧ cfd.files = files ∧
      (vs.getColumnFamily e.columnFamily).isSome := by
  unfold install at hcfd
  dsimp only at hcfd
  split at hcfd
  · rcases List.mem_append.mp hcfd with hold | hnew
    · exact Or.inl hold
    · rw [List.mem_singleton.mp hnew]
      exact Or.inr (Or.inl rfl)
  · rename_i hadd
    by_cases hdrop : e.isColumnFamilyDrop = true
    · rw [if_pos hdrop] at hcfd
      exact Or.inl (List.mem_of_mem_filter hcfd)
    · rw [if_neg hdrop] at hcfd
      obtain ⟨old, hold, rfl⟩ := List.mem_map.mp hcfd
      by_cases hid : old.id = e.columnFamily
      · have hfound : (vs.getColumnFamily e.columnFamily).isSome := by
          unfold getColumnFamily
          rw [List.find?_isSome]
          exact ⟨old, hold, decide_eq_true hid⟩
        rw [if_pos hid]
        exact Or.inr (Or.inr ⟨hadd, by simpa using hdrop, hid, rfl, hfound⟩)
      · rw [if_neg hid]
        exact Or.inl hold

theorem Fileless.logAndApply (h : vs.Fileless) (hadditive : edit.Additive)
    (hedit : edit.newFiles = []) (hcall : vs.logAndApply o fault edit = (ok, vs')) :
    vs'.Fileless := by
  have hconcat : ∀ l : List VersionEdit, (∀ e ∈ l, e.newFiles = []) → ∀ e', e'.Carries edit →
      ∀ e ∈ l ++ [e'], e.newFiles = [] := by
    intro l hl e' he' e he
    rcases List.mem_append.mp he with he | he
    · exact hl e he
    · rw [List.mem_singleton.mp he, he'.newFiles, hedit]
  rcases logAndApply_cases hcall with ⟨-, hcfs, hm⟩ | ⟨-, e, files, he, happly, hm, vs₁, hcfs, rfl⟩
  · refine ⟨fun cfd hcfd => h.versions cfd (hcfs ▸ hcfd), ?_⟩
    rcases hm with hm | ⟨e, he, hm⟩
    · rw [hm]
      exact h.manifest
    · rw [hm]
      exact hconcat _ h.manifest e he
  · constructor
    · intro cfd hcfd
      rcases mem_install_columnFamilies hcfd with hold | hnil | ⟨hadd, hdrop, -, hfiles, -⟩
      · exact h.versions cfd (hcfs ▸ hold)
      · exact hnil
      · rw [he.columnFamilyAdd] at hadd
        rw [he.isColumnFamilyDrop] at hdrop
        have hkept := happly hadd hdrop
        unfold ColumnFamilyData.applyFiles at hkept
        rw [hadditive.deletedFiles, hedit] at hkept
        cases hfound : vs.getColumnFamily edit.columnFamily with
        | none =>
            rw [hfound] at hkept
            rw [hfiles]
            exact (Option.some.inj hkept).symm
        | some old =>
            have hold := h.versions old (List.mem_of_find?_eq_some hfound)
            rw [hfound, Option.map_some, Option.getD_some, hold] at hkept
            rw [hfiles]
            exact (Option.some.inj hkept).symm
    · rcases hm with hm | hm
      · rw [hm]
        exact hconcat _ h.manifest e he
      · rw [hm]
        apply hconcat _ _ e he
        intro e' he'
        obtain ⟨-, -, hnil | ⟨cfd, hcfd, hfiles⟩⟩ := mem_writeCurrentState he'
        · exact hnil
        · rw [hfiles, h.versions cfd hcfd]

/-- Every file of a version is one that replaying the MANIFEST leaves. -/
structure Covered (vs : VersionSet) : Prop where
  additive : ∀ e ∈ vs.manifest, e.Additive
  files : ∀ cfd ∈ vs.columnFamilies, ∀ f ∈ cfd.files, (cfd.id, f) ∈ replayFiles vs.manifest

/-- The column family that is found under this number has the file. -/
def Has (vs : VersionSet) (id : UInt32) (f : Int32 × FileMetaData) : Prop :=
  ∃ cfd, vs.getColumnFamily id = some cfd ∧ f ∈ cfd.files

theorem Covered.mem_replayFiles (h : vs.Covered) {id : UInt32} {f : Int32 × FileMetaData}
    (hhas : vs.Has id f) : (id, f) ∈ replayFiles vs.manifest := by
  obtain ⟨cfd, hfound, hf⟩ := hhas
  have hid : cfd.id = id := by simpa using List.find?_some hfound
  rw [← hid]
  exact h.files cfd (List.mem_of_find?_eq_some hfound) f hf

theorem applyFileAdditions {files : List (Int32 × FileMetaData)}
    (added : List (Int32 × FileMetaData)) {files' : List (Int32 × FileMetaData)}
    (h : added.foldlM ColumnFamilyData.applyFileAddition files = some files') :
    files' = files ++ added := by
  induction added generalizing files with
  | nil =>
      rw [List.append_nil]
      exact (Option.some.inj h).symm
  | cons f added ih =>
      obtain ⟨files₁, hadd, hrest⟩ := Option.bind_eq_some_iff.mp h
      unfold ColumnFamilyData.applyFileAddition at hadd
      split_ifs at hadd
      rw [ih hrest, ← Option.some.inj hadd, List.append_assoc]
      rfl

theorem applyFiles_additive (hadditive : edit.Additive) {files files' : List (Int32 × FileMetaData)}
    (h : ColumnFamilyData.applyFiles files edit.toEditFields = some files') :
    files' = files ++ edit.newFiles := by
  unfold ColumnFamilyData.applyFiles at h
  rw [hadditive.deletedFiles] at h
  exact applyFileAdditions _ h

theorem mem_applyFiles (hadditive : edit.Additive) {f : Int32 × FileMetaData}
    {files : List (Int32 × FileMetaData)}
    (h : ColumnFamilyData.applyFiles
      (((vs.getColumnFamily edit.columnFamily).map (·.files)).getD []) edit.toEditFields =
        some files) :
    f ∈ files ↔ vs.Has edit.columnFamily f ∨ f ∈ edit.newFiles := by
  rw [applyFiles_additive hadditive h, List.mem_append]
  unfold Has
  cases vs.getColumnFamily edit.columnFamily with
  | none => simp
  | some cfd => simp

/-- A call keeps the MANIFEST covering the versions. -/
theorem Covered.logAndApply (h : vs.Covered) (hadditive : edit.Additive)
    (hcall : vs.logAndApply o fault edit = (ok, vs')) : vs'.Covered := by
  have hconcat : ∀ l : List VersionEdit, (∀ e ∈ l, e.Additive) → ∀ e', e'.Carries edit →
      ∀ e ∈ l ++ [e'], e.Additive := by
    intro l hl e' he' e he
    rcases List.mem_append.mp he with he | he
    · exact hl e he
    · rw [List.mem_singleton.mp he]
      exact he'.additive hadditive
  have hsnapshot : ∀ e ∈ vs.writeCurrentStateToManifest o, e.Additive :=
    fun e he => (mem_writeCurrentState he).2.1
  have hkept : ∀ e', e'.Carries edit → ∀ cfd ∈ vs.columnFamilies, ∀ f ∈ cfd.files,
      (cfd.id, f) ∈ replayFiles (vs.manifest ++ [e']) := by
    intro e' he' cfd hcfd f hf
    rw [replayFiles_append]
    exact VersionEdit.Additive.mem_foldl _
      (fun e he => List.mem_singleton.mp he ▸ he'.additive hadditive) (h.files cfd hcfd f hf)
  rcases logAndApply_cases hcall with ⟨-, hcfs, hm⟩ | ⟨-, e, files, he, happly, hm, vs₁, hcfs, rfl⟩
  · rcases hm with hm | ⟨e, he, hm⟩
    · refine ⟨hm ▸ h.additive, fun cfd hcfd f hf => ?_⟩
      rw [hm]
      exact h.files cfd (hcfs ▸ hcfd) f hf
    · refine ⟨hm ▸ hconcat _ h.additive e he, fun cfd hcfd f hf => ?_⟩
      rw [hm]
      exact hkept e he cfd (hcfs ▸ hcfd) f hf
  · obtain ⟨l, hl, hm⟩ : ∃ l : List VersionEdit, ((∀ e ∈ l, e.Additive) ∧
        ∀ cfd ∈ vs.columnFamilies, ∀ f ∈ cfd.files, (cfd.id, f) ∈ replayFiles (l ++ [e])) ∧
        (vs₁.install e files).manifest = l ++ [e] := by
      rcases hm with hm | hm
      · exact ⟨_, ⟨h.additive, hkept e he⟩, hm⟩
      · refine ⟨_, ⟨hsnapshot, fun cfd hcfd f hf => ?_⟩, hm⟩
        -- the edit of the snapshot with the files of this column family
        have hmem : (cfd.id, f) ∈ replayFiles (vs.writeCurrentStateToManifest o) := by
          have hlast : cfd.snapshot.getLast (by simp [ColumnFamilyData.snapshot]) ∈
              vs.writeCurrentStateToManifest o := by
            unfold writeCurrentStateToManifest
            apply List.mem_append_right
            exact List.mem_flatMap.mpr ⟨cfd, hcfd, List.getLast_mem _⟩
          exact VersionEdit.Additive.mem_replayFiles hsnapshot hlast rfl hf
        rw [replayFiles_append]
        exact VersionEdit.Additive.mem_foldl _
          (fun e' he' => List.mem_singleton.mp he' ▸ he.additive hadditive) hmem
    refine ⟨hm ▸ hconcat l hl.1 e he, fun cfd hcfd f hf => ?_⟩
    rw [hm]
    rcases mem_install_columnFamilies hcfd with hold | hnil | ⟨hadd, hdrop, hid, hfiles, -⟩
    · exact hl.2 cfd (hcfs ▸ hold) f hf
    · rw [hnil] at hf
      cases hf
    · rw [hfiles, mem_applyFiles hadditive
        (happly (he.columnFamilyAdd ▸ hadd) (he.isColumnFamilyDrop ▸ hdrop))] at hf
      rw [hid]
      rcases hf with ⟨old, hfound, hf⟩ | hf
      · have hold : old.id = edit.columnFamily := by simpa using List.find?_some hfound
        rw [he.columnFamily, ← hold]
        exact hl.2 old (List.mem_of_find?_eq_some hfound) f hf
      · exact VersionEdit.Additive.mem_replayFiles (hconcat l hl.1 e he) (by simp) hadd
          (he.newFiles ▸ hf)

/-- A file that a column family has stays, and those of an edit that went well come. -/
theorem Has.logAndApply (hadditive : edit.Additive)
    (hcall : vs.logAndApply o fault edit = (ok, vs')) {id : UInt32} {f : Int32 × FileMetaData}
    (h : vs.Has id f ∨ ok = true ∧ edit.columnFamilyAdd = none ∧ edit.columnFamily = id ∧
      (vs.getColumnFamily id).isSome ∧ f ∈ edit.newFiles) : vs'.Has id f := by
  rcases logAndApply_cases hcall with ⟨hok, hcfs, -⟩ | ⟨-, e, files, he, happly, -, vs₁, hcfs, rfl⟩
  · rcases h with h | ⟨hok', -⟩
    · unfold Has getColumnFamily at h ⊢
      rwa [hcfs]
    · rw [hok] at hok'
      cases hok'
  · have hdrop : e.isColumnFamilyDrop = false := by
      rw [he.isColumnFamilyDrop, hadditive.isColumnFamilyDrop]
    obtain ⟨cfd, hfound⟩ : ∃ cfd, vs.getColumnFamily id = some cfd := by
      rcases h with ⟨cfd, hfound, -⟩ | ⟨-, -, -, hsome, -⟩
      · exact ⟨cfd, hfound⟩
      · exact Option.isSome_iff_exists.mp hsome
    have hfound₁ : vs₁.columnFamilies.find? (·.id = id) = some cfd := by rwa [hcfs]
    unfold Has getColumnFamily install
    dsimp only
    cases hadd : e.columnFamilyAdd with
    | some name =>
        rcases h with ⟨cfd', hfound', hf⟩ | ⟨-, hadd', -⟩
        · dsimp only
          rw [List.find?_append, hfound₁]
          rw [hfound] at hfound'
          exact ⟨cfd, rfl, Option.some.inj hfound' ▸ hf⟩
        · rw [he.columnFamilyAdd, hadd'] at hadd
          cases hadd
    | none =>
        dsimp only
        rw [if_neg (by simp [hdrop])]
        dsimp only
        have hid : cfd.id = id := by simpa using List.find?_some hfound
        have hcomp : ((fun c : ColumnFamilyData => decide (c.id = id)) ∘ fun c =>
            if c.id = e.columnFamily then
              { c with files := files, logNumber := if e.logNumber.getD 0 ≠ 0 then e.logNumber.getD 0
                  else c.logNumber }
            else c) = fun c => decide (c.id = id) := by
          funext c
          simp only [Function.comp_apply]
          split_ifs <;> rfl
        rw [List.find?_map, hcomp, hfound₁, Option.map_some]
        refine ⟨_, rfl, ?_⟩
        have hfiles := fun hid' : edit.columnFamily = id => mem_applyFiles (f := f) hadditive
          (happly (he.columnFamilyAdd ▸ hadd) hadditive.isColumnFamilyDrop)
        by_cases heq : cfd.id = e.columnFamily
        · rw [if_pos heq]
          have hedit : edit.columnFamily = id := by rw [← he.columnFamily, ← heq, hid]
          refine (hfiles hedit).mpr ?_
          rcases h with h | ⟨-, -, -, -, hf⟩
          · exact Or.inl (hedit ▸ h)
          · exact Or.inr hf
        · rw [if_neg heq]
          rcases h with ⟨cfd', hfound', hf⟩ | ⟨-, -, hedit, -⟩
          · rw [hfound] at hfound'
            exact Option.some.inj hfound' ▸ hf
          · rw [he.columnFamily, hedit] at heq
            exact absurd hid heq

end VersionSet

end Tweezer
