import Mathlib.Tactic.SplitIfs
import Tweezer.ObsoleteFiles

/-!
# What an event does to tables and keys

The map of the keys agrees with the function that `KeyList` is elsewhere. A table that is in no
version and of no running job stays so: numbers are handed out once, and a version gets its
tables from the jobs.
-/

namespace Tweezer

namespace KeyList

theorem isSome_insert (l : KeyList) (number m : UInt64) (key : Bytes) :
    (l.insert number key m).isSome ↔ m = number ∨ (l m).isSome := by
  by_cases hm : m = number
  · rw [hm, insert_self]
    simp
  · rw [insert_of_ne hm]
    simp [hm]

theorem isSome_erase (l : KeyList) (number m : UInt64) :
    (l.erase number m).isSome ↔ m ≠ number ∧ (l m).isSome := by
  unfold erase
  by_cases hm : m = number
  · rw [hm, Function.update_self]
    simp
  · rw [Function.update_of_ne hm]
    simp [hm]

end KeyList

namespace KeyMap

@[simp] theorem find_nil : find [] = .empty := rfl

theorem find_insert (m : KeyMap) (number : UInt64) (key : Bytes) :
    (m.insert number key).find = m.find.insert number key := by
  funext k
  unfold insert
  cases hfind : m.find number with
  | some old =>
      rw [Option.isSome_some, if_pos rfl]
      by_cases hk : k = number
      · rw [hk, KeyList.insert_self, hfind, Option.getD_some]
      · rw [KeyList.insert_of_ne hk]
  | none =>
      rw [Option.isSome_none, if_neg (by decide)]
      by_cases hk : k = number
      · rw [hk, KeyList.insert_self, hfind, Option.getD_none]
        simp [find]
      · rw [KeyList.insert_of_ne hk]
        have hb : (k == number) = false := beq_eq_false_iff_ne.mpr hk
        simp [find, List.lookup_cons, hb]

theorem find_erase (m : KeyMap) (number : UInt64) :
    (m.erase number).find = m.find.erase number := by
  funext k
  unfold erase KeyList.erase find
  induction m with
  | nil =>
      by_cases hk : k = number
      · rw [hk, Function.update_self]
        rfl
      · rw [Function.update_of_ne hk]
        rfl
  | cons entry m ih =>
      obtain ⟨j, key⟩ := entry
      rw [List.filter_cons]
      by_cases hk : k = number
      · rw [hk, Function.update_self] at ih ⊢
        by_cases hj : number = j
        · rw [if_neg (by simp [hj]), ih]
        · have hb : (number == j) = false := beq_eq_false_iff_ne.mpr hj
          rw [if_pos (decide_eq_true hj), List.lookup_cons, hb]
          exact ih
      · rw [Function.update_of_ne hk] at ih ⊢
        rw [List.lookup_cons]
        by_cases hj : number = j
        · have hb : (k == j) = false := beq_eq_false_iff_ne.mpr (hj ▸ hk)
          rw [hb, if_neg (by simp [hj])]
          exact ih
        · rw [if_pos (decide_eq_true hj), List.lookup_cons, ih]

theorem find_applyEdit (m : KeyMap) (e : VersionEdit) :
    (m.applyEdit e).find = e.applyToKeyList m.find := by
  unfold applyEdit VersionEdit.applyToKeyList VersionEdit.applyKeys
  dsimp only
  split_ifs <;> simp only [find_erase, find_insert]

theorem find_replay (m : KeyMap) (manifest : List VersionEdit) :
    (m.replay manifest).find = manifest.foldl (fun l e => e.applyToKeyList l) m.find := by
  unfold replay
  induction manifest generalizing m with
  | nil => rfl
  | cons e manifest ih => rw [List.foldl_cons, List.foldl_cons, ih, find_applyEdit]

theorem isSome_find_erases (numbers : List UInt64) (m : KeyMap) (k : UInt64) :
    ((numbers.foldl erase m).find k).isSome ↔ k ∉ numbers ∧ (m.find k).isSome := by
  induction numbers generalizing m with
  | nil => simp
  | cons number numbers ih =>
      rw [List.foldl_cons, ih, find_erase, KeyList.isSome_erase, List.mem_cons, not_or]
      tauto

theorem isSome_find (m : KeyMap) (k : UInt64) : (m.find k).isSome ↔ ∃ entry ∈ m, entry.1 = k := by
  unfold find
  induction m with
  | nil => simp
  | cons entry m ih =>
      obtain ⟨j, key⟩ := entry
      by_cases hk : k = j
      · simp [hk]
      · have hb : (k == j) = false := beq_eq_false_iff_ne.mpr hk
        rw [List.lookup_cons, hb]
        simp [Ne.symm hk, ih]

end KeyMap

/-! ### Edits about keys -/

namespace VersionEdit

theorem applyToKeyList_addSstKey (l : KeyList) (number : UInt64) (key : Key) :
    (new.addSstKey number key).applyToKeyList l = l.insert number key.val := rfl

theorem applyToKeyList_deleteSstKey (l : KeyList) (number : UInt64) :
    (new.deleteSstKey number).applyToKeyList l = l.erase number := rfl

end VersionEdit

theorem KeyMap.sstKeyEdit_eq_some {entry : UInt64 × Bytes} {e : VersionEdit}
    (h : sstKeyEdit entry = some e) : ∃ key, e = VersionEdit.new.addSstKey entry.1 key := by
  unfold sstKeyEdit at h
  split at h
  · exact ⟨_, (Option.some.inj h).symm⟩
  · cases h

/-- The edits for all entries, one by one. -/
theorem KeyMap.mapM_sstKeyEdit_cons {entry : UInt64 × Bytes} {m : KeyMap}
    {edits : List VersionEdit} (h : List.mapM sstKeyEdit (entry :: m) = some edits) :
    ∃ key rest, edits = VersionEdit.new.addSstKey entry.1 key :: rest ∧
      List.mapM sstKeyEdit m = some rest := by
  rw [List.mapM_cons] at h
  obtain ⟨e, he, h⟩ := Option.bind_eq_some_iff.mp h
  obtain ⟨rest, hrest, h⟩ := Option.bind_eq_some_iff.mp h
  obtain ⟨key, rfl⟩ := sstKeyEdit_eq_some he
  cases h
  exact ⟨key, rest, rfl, hrest⟩

theorem KeyMap.isSstDelete_of_mapM {m : KeyMap} {edits : List VersionEdit}
    (h : m.mapM sstKeyEdit = some edits) : ∀ e ∈ edits, e.isSstDelete = false := by
  induction m generalizing edits with
  | nil =>
      cases h
      intro e he
      cases he
  | cons entry m ih =>
      obtain ⟨key, rest, rfl, hrest⟩ := mapM_sstKeyEdit_cons h
      exact List.forall_mem_cons.mpr ⟨rfl, ih hrest⟩

/-- Replaying the edits for all entries gives a key to the numbers of these entries. -/
theorem KeyMap.isSome_replayKeys {m : KeyMap} {edits : List VersionEdit}
    (h : m.mapM sstKeyEdit = some edits) (k : UInt64) :
    (replayKeys edits k).isSome ↔ (m.find k).isSome := by
  have hfold : ∀ l : KeyList, ((edits.foldl (fun l e => e.applyToKeyList l) l) k).isSome ↔
      (∃ entry ∈ m, entry.1 = k) ∨ (l k).isSome := by
    induction m generalizing edits with
    | nil =>
        intro l
        cases h
        simp
    | cons entry m ih =>
        intro l
        obtain ⟨key, rest, rfl, hrest⟩ := mapM_sstKeyEdit_cons h
        rw [List.foldl_cons, ih hrest, VersionEdit.applyToKeyList_addSstKey,
          KeyList.isSome_insert]
        simp only [List.mem_cons, exists_eq_or_imp, eq_comm (a := k)]
        exact or_left_comm.trans or_assoc.symm
  rw [isSome_find]
  exact (hfold .empty).trans (by simp [KeyList.empty])

/-! ### Versions -/

namespace DbFiles

variable {s s' : DbFiles} {number : UInt64}

theorem mem_liveFiles :
    number ∈ s.liveFiles ↔ ∃ v ∈ s.versions, ∃ f ∈ v.files, f.number = number := by
  unfold liveFiles
  simp only [List.mem_flatMap, List.mem_map]

theorem mem_currentFiles {columnFamily : UInt32} {f : VersionFile} :
    f ∈ s.currentFiles columnFamily ↔
      ∃ v ∈ s.versions, (v.current ∧ v.columnFamily = columnFamily) ∧ f ∈ v.files := by
  unfold currentFiles
  simp only [List.mem_flatMap, List.mem_filter, decide_eq_true_eq, and_assoc]

theorem live_of_currentFiles {columnFamily : UInt32}
    (h : number ∈ (s.currentFiles columnFamily).map (·.number)) : number ∈ s.liveFiles := by
  obtain ⟨f, hf, rfl⟩ := List.mem_map.mp h
  obtain ⟨v, hv, -, hfv⟩ := mem_currentFiles.mp hf
  exact mem_liveFiles.mpr ⟨v, hv, f, hfv, rfl⟩

theorem live_of_removeVersions (h : number ∈ s.removeVersions.liveFiles) :
    number ∈ s.liveFiles := by
  obtain ⟨v, hv, f, hf, hn⟩ := mem_liveFiles.mp h
  exact mem_liveFiles.mpr ⟨v, (List.mem_filter.mp hv).1, f, hf, hn⟩

/-- A table of a destroyed version is in another one, or in `obsolete_files_`. -/
theorem kept_removeVersions (h : number ∈ s.liveFiles) :
    number ∈ s.removeVersions.liveFiles ∨ number ∈ s.removeVersions.obsoleteFiles := by
  obtain ⟨v, hv, f, hf, hn⟩ := mem_liveFiles.mp h
  by_cases hkept : ∃ w ∈ s.versions, w.held ∧ f ∈ w.files
  · left
    obtain ⟨w, hw, hheld, hfw⟩ := hkept
    exact mem_liveFiles.mpr ⟨w, List.mem_filter.mpr ⟨hw, hheld⟩, f, hfw, hn⟩
  · right
    have hdropped : v.held = false := by
      cases hheld : v.held with
      | false => rfl
      | true => exact absurd ⟨v, hv, hheld, hf⟩ hkept
    refine List.mem_append_right _ (List.mem_map.mpr ⟨f, List.mem_filter.mpr ⟨?_, ?_⟩, hn⟩)
    · apply List.mem_dedup.mpr
      exact List.mem_flatMap.mpr ⟨v, List.mem_filter.mpr ⟨hv, by rw [hdropped]; rfl⟩, hf⟩
    · apply decide_eq_true
      intro hmem
      obtain ⟨w, hw, hfw⟩ := List.mem_flatMap.mp hmem
      exact hkept ⟨w, (List.mem_filter.mp hw).1, (List.mem_filter.mp hw).2, hfw⟩

theorem mem_removeVersions_obsoleteFiles (h : number ∈ s.removeVersions.obsoleteFiles) :
    number ∈ s.obsoleteFiles ∨ number ∈ s.liveFiles := by
  rcases List.mem_append.mp h with h | h
  · exact Or.inl h
  · right
    obtain ⟨f, hf, hn⟩ := List.mem_map.mp h
    have hdropped := List.mem_dedup.mp (List.mem_filter.mp hf).1
    obtain ⟨v, hv, hfv⟩ := List.mem_flatMap.mp hdropped
    exact mem_liveFiles.mpr ⟨v, (List.mem_filter.mp hv).1, f, hfv, hn⟩

theorem obsoleteFiles_subset_removeVersions :
    s.obsoleteFiles ⊆ s.removeVersions.obsoleteFiles := List.subset_append_left _ _

section installVersion

variable {columnFamily : UInt32} {deleted added : List UInt64}

theorem live_appendVersion (h : number ∈ (s.appendVersion columnFamily deleted added).liveFiles) :
    number ∈ s.liveFiles ∨ number ∈ added := by
  obtain ⟨v, hv, f, hf, hn⟩ := mem_liveFiles.mp h
  rcases List.mem_append.mp hv with hv | hv
  · left
    obtain ⟨w, hw, rfl⟩ := List.mem_map.mp hv
    refine mem_liveFiles.mpr ⟨w, hw, f, ?_, hn⟩
    by_cases hcf : w.columnFamily = columnFamily
    · rwa [if_pos hcf] at hf
    · rwa [if_neg hcf] at hf
  · rw [List.mem_singleton.mp hv] at hf
    rcases List.mem_append.mp hf with hf | hf
    · left
      exact live_of_currentFiles (List.mem_map.mpr ⟨f, (List.mem_filter.mp hf).1, hn⟩)
    · right
      obtain ⟨⟨n, k⟩, hfile, rfl⟩ := List.mem_map.mp hf
      exact hn ▸ List.fst_mem_of_mem_zipIdx hfile

theorem live_installVersion (h : number ∈ (s.installVersion columnFamily deleted added).liveFiles) :
    number ∈ s.liveFiles ∨ number ∈ added :=
  live_appendVersion (live_of_removeVersions h)

/-- What was live still is, or waits to be deleted. -/
theorem kept_installVersion (h : number ∈ s.liveFiles) :
    number ∈ (s.installVersion columnFamily deleted added).liveFiles ∨
      number ∈ (s.installVersion columnFamily deleted added).obsoleteFiles := by
  apply kept_removeVersions (s := s.appendVersion columnFamily deleted added)
  obtain ⟨v, hv, f, hf, hn⟩ := mem_liveFiles.mp h
  refine mem_liveFiles.mpr ⟨_, List.mem_append_left _ (List.mem_map.mpr ⟨v, hv, rfl⟩), f, ?_, hn⟩
  by_cases hcf : v.columnFamily = columnFamily
  · rwa [if_pos hcf]
  · rwa [if_neg hcf]

theorem added_installVersion (h : number ∈ added) :
    number ∈ (s.installVersion columnFamily deleted added).liveFiles := by
  obtain ⟨i, hi, hget⟩ := List.mem_iff_getElem.mp h
  refine mem_liveFiles.mpr ⟨_, List.mem_filter.mpr ⟨List.mem_append_right _
    (List.mem_singleton_self _), rfl⟩, ⟨number, s.metadataMade + i⟩, ?_, rfl⟩
  apply List.mem_append_right
  refine List.mem_map.mpr ⟨(number, s.metadataMade + i), ?_, rfl⟩
  apply List.mk_mem_zipIdx_iff_le_and_getElem?_sub.mpr
  rw [Nat.add_sub_cancel_left]
  exact ⟨Nat.le_add_right _ _, List.getElem?_eq_some_iff.mpr ⟨hi, hget⟩⟩

theorem mem_installVersion_obsoleteFiles
    (h : number ∈ (s.installVersion columnFamily deleted added).obsoleteFiles) :
    number ∈ s.obsoleteFiles ∨ number ∈ s.liveFiles ∨ number ∈ added := by
  rcases mem_removeVersions_obsoleteFiles h with h | h
  · exact Or.inl h
  · exact Or.inr (live_appendVersion h)

theorem obsoleteFiles_subset_installVersion :
    s.obsoleteFiles ⊆ (s.installVersion columnFamily deleted added).obsoleteFiles :=
  obsoleteFiles_subset_removeVersions (s := s.appendVersion columnFamily deleted added)

end installVersion

end DbFiles

end Tweezer
