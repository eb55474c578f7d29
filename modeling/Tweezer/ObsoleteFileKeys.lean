import Tweezer.ObsoleteFileSafety

/-!
# Keys and their tables

A step takes out of the MANIFEST and of `KeyList` only the keys of dead tables. And under the
conditions that the callers of the purge must meet every key is the key of a table that is live,
pending, obsolete, or found by a background call that will write its deletion vector out.
-/

namespace Tweezer

/-! ### What a replay keeps -/

namespace VersionEdit

theorem isSome_applyToKeyList (e : VersionEdit) (l : KeyList) (number : UInt64) :
    (e.applyToKeyList l number).isSome ↔
      ¬(e.isSstDelete ∧ e.sstDeleteFileNumber = number) ∧
        (e.isSstKey ∧ e.sstFileNumber = number ∨ (l number).isSome) := by
  unfold applyToKeyList applyKeys
  cases hkey : e.isSstKey <;> cases hdel : e.isSstDelete
  · simp
  · simp [KeyList.isSome_erase, eq_comm (a := number)]
  · simp [KeyList.isSome_insert, eq_comm (a := number)]
  · simp [KeyList.isSome_erase, KeyList.isSome_insert, eq_comm (a := number)]

end VersionEdit

/-- A key that replaying from nothing leaves is left by replaying onto other keys. -/
theorem isSome_foldl_applyToKeyList_mono (manifest : List VersionEdit) {l l' : KeyList}
    {number : UInt64} (h : (l number).isSome → (l' number).isSome) :
    (manifest.foldl (fun l e => e.applyToKeyList l) l number).isSome →
      (manifest.foldl (fun l e => e.applyToKeyList l) l' number).isSome := by
  induction manifest generalizing l l' with
  | nil => exact h
  | cons e manifest ih =>
      apply ih
      rw [VersionEdit.isSome_applyToKeyList, VersionEdit.isSome_applyToKeyList]
      exact And.imp_right (Or.imp_right h)

namespace DbFiles

variable {s s' : DbFiles} {number : UInt64}

/-! ### Recovery -/

theorem keyList_writeLevel0TableForRecovery (s : DbFiles) (t : RecoveredTable) :
    (s.writeLevel0TableForRecovery t).keyList =
      s.keyList.insert s.nextFileNumber t.key.val := by
  unfold writeLevel0TableForRecovery
  cases t.hasOutput <;> rfl

theorem find_recover (s : DbFiles) (sameProcess : Bool) :
    (s.recover sameProcess).keyList.find =
      s.manifest.foldl (fun l e => e.applyToKeyList l)
        (if sameProcess then s.keyList else []).find :=
  KeyMap.find_replay _ _

/-- After a reopen the MANIFEST has the keys that `KeyList` has. -/
theorem reopen_keys {sameProcess : Bool} {recovered : List RecoveredTable}
    (hs : s.reopen sameProcess recovered = some s') :
    s'.keyList = ((s.recover sameProcess).recoverTables recovered).keyList ∧
      ∀ number, (replayKeys s'.manifest number).isSome ↔ (s'.keyList.find number).isSome := by
  obtain ⟨edits, hedits, hs⟩ := Option.bind_eq_some_iff.mp hs
  cases hs
  exact ⟨rfl, fun number => KeyMap.isSome_replayKeys hedits number⟩

/-! ### No key dies early -/

/-- The MANIFEST that is left has no key of a live table or of a pending output. -/
def ManifestUnused (s : DbFiles) : Prop :=
  ∀ entry ∈ KeyMap.replay [] s.manifest, entry.1 ∉ s.liveFiles ∧ ¬s.PendingOutput entry.1

theorem isSome_logEdit_addSstKey (s : DbFiles) (m : UInt64) (key : Key) :
    (replayKeys (s.logEdit (VersionEdit.new.addSstKey m key)).manifest number).isSome ↔
      number = m ∨ (replayKeys s.manifest number).isSome := by
  unfold logEdit
  rw [KeyState.replayKeys_concat, VersionEdit.applyToKeyList_addSstKey, KeyList.isSome_insert]

theorem isSome_logEdit_deleteSstKey (s : DbFiles) (m : UInt64) :
    (replayKeys (s.logEdit (VersionEdit.new.deleteSstKey m)).manifest number).isSome ↔
      number ≠ m ∧ (replayKeys s.manifest number).isSome := by
  unfold logEdit
  rw [KeyState.replayKeys_concat, VersionEdit.applyToKeyList_deleteSstKey, KeyList.isSome_erase]

theorem findObsoleteFiles_keys (s : DbFiles) (writesOut fullScan : Bool) :
    (s.findObsoleteFiles writesOut fullScan).manifest = s.manifest ∧
      (s.findObsoleteFiles writesOut fullScan).keyList = s.keyList := by
  obtain ⟨obsolete, grabbed, found, -, heq⟩ := findObsoleteFiles_eq s writesOut fullScan
  rw [heq]
  exact ⟨rfl, rfl⟩

end DbFiles

end Tweezer
