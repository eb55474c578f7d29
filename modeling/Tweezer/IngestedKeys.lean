import Tweezer.BlockScan
import Tweezer.KeyList

/-!
# The keys of ingested tables

`SstFileWriter::Open` with the constructor of the builder it makes, and
`ExternalSstFileIngestionJob`. A builder asks for the key of the number in the name of its file,
also where the file is outside of the database; the job gives the file a number of its own and
logs its edit. No key is generated or logged on the way.
-/

namespace Tweezer

/-- What happens to the keys in a database that ingests files. -/
inductive DbEvent where
  | keys (event : KeyEvent)
  /-- The job reads the external file, logs an edit with the new file, and the file is opened
  under its number. -/
  | ingest (externalName internalName : Bytes) (edit : EditFields)

namespace KeyState

def ingest (s : KeyState) (externalName internalName : Bytes) (edit : EditFields) : KeyState :=
  { s with
    keyList := ((s.keyList.filenameToKey externalName).2.filenameToKey internalName).2
    manifest := s.manifest ++ [{ VersionEdit.new with toEditFields := edit }] }

def stepDb (s : KeyState) : DbEvent → Outcome KeyState
  | .keys event => s.step event
  | .ingest externalName internalName edit => .ok (s.ingest externalName internalName edit)

def runDb : KeyState → List DbEvent → Outcome KeyState
  | s, [] => .ok s
  | s, event :: events => do
      let s ← s.stepDb event
      runDb s events

end KeyState

/-- No key is generated for this number. -/
def DbEvent.Spares (number : UInt64) : DbEvent → Prop
  | .keys (.generateKey fileName _) => tableFileNameToNumber fileName ≠ number
  | _ => True

/-- What is known of a number for which no key was generated: if it has an entry it is the empty
one, and the MANIFEST names no key for it. -/
structure KeyState.Keyless (number : UInt64) (s : KeyState) : Prop where
  keyList : ∀ key, s.keyList number = some key → key = []
  replayed : replayKeys s.manifest number = none

namespace KeyState.Keyless

variable {number : UInt64} {s s' : KeyState}

theorem start : KeyState.start.Keyless number := ⟨nofun, rfl⟩

theorem insert_nil {l : KeyList} (h : ∀ key, l number = some key → key = []) (m : UInt64) :
    ∀ key, l.insert m [] number = some key → key = [] := by
  intro key hkey
  by_cases hm : number = m
  · rw [← hm, KeyList.insert_self] at hkey
    cases hl : l number with
    | none =>
        rw [hl] at hkey
        exact (Option.some.inj hkey).symm
    | some k =>
        rw [hl] at hkey
        rw [← Option.some.inj hkey]
        exact h k hl
  · rw [KeyList.insert_of_ne hm] at hkey
    exact h key hkey

theorem erase {l : KeyList} (m : UInt64) (h : l number = none) : l.erase m number = none := by
  by_cases hm : number = m
  · rw [KeyList.erase, hm, Function.update_self]
  · rw [KeyList.erase, Function.update_of_ne hm]
    exact h

/-- A job that looks for the key of such a number finds none that it could log. -/
theorem findSstKey (h : s.Keyless number) (key : Key) : s.findSstKey number ≠ .ok key := by
  intro hfind
  unfold KeyState.findSstKey at hfind
  cases hk : s.keyList number with
  | none =>
      rw [hk] at hfind
      cases hfind
  | some k =>
      rw [hk, h.keyList k hk] at hfind
      cases hfind

theorem step (h : s.Keyless number) {event : DbEvent} (hspares : event.Spares number)
    (hs : s.stepDb event = .ok s') : s'.Keyless number := by
  cases event with
  | ingest externalName internalName edit =>
      cases hs
      refine ⟨insert_nil (insert_nil h.keyList _) _, ?_⟩
      dsimp only [KeyState.ingest]
      rw [replayKeys_concat]
      exact h.replayed
  | keys event =>
      cases event with
      | generateKey fileName newKey =>
          cases hs
          refine ⟨fun key hkey => h.keyList key ?_, h.replayed⟩
          dsimp only [KeyList.generateKey] at hkey
          rwa [KeyList.insert_of_ne (Ne.symm hspares)] at hkey
      | filenameToKey fileName =>
          cases hs
          exact ⟨insert_nil h.keyList _, h.replayed⟩
      | logSstKey fileNumber =>
          obtain ⟨key, hfind, hs⟩ := Outcome.bind_eq_ok.mp hs
          cases hs
          refine ⟨h.keyList, ?_⟩
          have hne : number ≠ fileNumber := by
            rintro rfl
            exact h.findSstKey key hfind
          dsimp only
          rw [replayKeys_concat]
          have hinsert : (VersionEdit.new.addSstKey fileNumber key).applyToKeyList
              (replayKeys s.manifest) = (replayKeys s.manifest).insert fileNumber key.val := rfl
          rw [hinsert, KeyList.insert_of_ne hne]
          exact h.replayed
      | logSstDeletion fileNumber =>
          cases hs
          refine ⟨h.keyList, ?_⟩
          dsimp only
          rw [replayKeys_concat]
          exact erase fileNumber h.replayed
      | deleteSstKeyFromList fileNumber =>
          cases hs
          refine ⟨fun key hkey => h.keyList key ?_, h.replayed⟩
          by_cases hm : number = fileNumber
          · dsimp only [KeyList.deleteSstKeyFromList] at hkey
            rw [KeyList.erase, hm, Function.update_self] at hkey
            cases hkey
          · dsimp only [KeyList.deleteSstKeyFromList] at hkey
            rwa [KeyList.erase, Function.update_of_ne hm] at hkey
      | restart =>
          cases hs
          refine ⟨fun key hkey => ?_, h.replayed⟩
          dsimp only at hkey
          rw [h.replayed] at hkey
          cases hkey

theorem run (h : s.Keyless number) (events : List DbEvent)
    (hspares : ∀ event ∈ events, event.Spares number) (hrun : s.runDb events = .ok s') :
    s'.Keyless number := by
  induction events generalizing s with
  | nil =>
      cases hrun
      exact h
  | cons event events ih =>
      obtain ⟨s₁, hstep, hrest⟩ := Outcome.bind_eq_ok.mp hrun
      exact ih (h.step (hspares event (List.mem_cons_self ..)) hstep)
        (fun e he => hspares e (List.mem_cons_of_mem _ he)) hrest

/-- `FilenameToKey` gives the empty string for such a number. -/
theorem filenameToKey {fileName : Bytes} (h : s.Keyless (tableFileNameToNumber fileName)) :
    (s.keyList.filenameToKey fileName).1 = [] := by
  unfold KeyList.filenameToKey
  dsimp only
  cases hk : s.keyList (tableFileNameToNumber fileName) with
  | none => rfl
  | some k => exact h.keyList k hk

end KeyState.Keyless

end Tweezer
