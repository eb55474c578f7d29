import Mathlib.Data.List.Induction
import Mathlib.Logic.Function.Basic
import Tweezer.VersionEditSecrets

/-!
# The keys of the tables

`KeyList` of `sgx/enc_dec.cc`, which maps the number of a table to its key, and what
`VersionEditHandler::ApplyVersionEdit` and the jobs that write tables do with it. A map entry
is only ever inserted, never written again; looking up a number inserts an empty key for it.
-/

namespace Tweezer

/-- `std::map<uint64_t, std::string>`. -/
abbrev KeyList := UInt64 → Option Bytes

/-- The digits in front of the dot, from the last to the first. -/
def digitsToNumber : Bytes → UInt64 → UInt64 → UInt64
  | [], number, _ => number
  | c :: cs, number, base =>
      if 48 ≤ c ∧ c ≤ 57 then digitsToNumber cs (number + (c - 48).toUInt64 * base) (base * 10)
      else number

/-- `TableFileNameToNumber`: the decimal number in front of the last dot. -/
def tableFileNameToNumber (name : Bytes) : UInt64 :=
  digitsToNumber ((name.reverse.dropWhile (· ≠ 0x2e)).drop 1) 0 1

namespace KeyList

def empty : KeyList := fun _ => none

/-- `std::map::insert`, which keeps an entry that is there. -/
def insert (l : KeyList) (number : UInt64) (key : Bytes) : KeyList :=
  Function.update l number (some ((l number).getD key))

def erase (l : KeyList) (number : UInt64) : KeyList := Function.update l number none

/-- What a map that keeps the last value written to it would do. -/
def assign (l : KeyList) (number : UInt64) (key : Bytes) : KeyList :=
  Function.update l number (some key)

/-- `GenerateKey`, with the key that it hands out. -/
def generateKey (l : KeyList) (fileName : Bytes) (newKey : Key) : Key × KeyList :=
  (newKey, l.insert (tableFileNameToNumber fileName) newKey.val)

/-- `AddSSTKeyToList`. -/
def addSstKeyToList (l : KeyList) (fileNumber : UInt64) (key : Key) : KeyList :=
  l.insert fileNumber key.val

/-- `DeleteSSTKeyFromList`. -/
def deleteSstKeyFromList (l : KeyList) (fileNumber : UInt64) : KeyList := l.erase fileNumber

/-- `FilenameToKey`: `operator[]` inserts an empty key for a number that is not there. -/
def filenameToKey (l : KeyList) (fileName : Bytes) : Bytes × KeyList :=
  ((l (tableFileNameToNumber fileName)).getD [], l.insert (tableFileNameToNumber fileName) [])

@[simp] theorem insert_self (l : KeyList) (number : UInt64) (key : Bytes) :
    l.insert number key number = some ((l number).getD key) := Function.update_self _ _ _

theorem insert_of_ne {l : KeyList} {number m : UInt64} (h : m ≠ number) (key : Bytes) :
    l.insert number key m = l m := Function.update_of_ne h _ _

/-- An entry is as good as overwritten when there was none, or the same. -/
def Free (l : KeyList) (number : UInt64) (key : Bytes) : Prop :=
  ∀ k, l number = some k → k = key

theorem insert_eq_assign_iff (l : KeyList) (number : UInt64) (key : Bytes) :
    l.insert number key = l.assign number key ↔ l.Free number key := by
  constructor
  · intro h k hk
    have hself := congrFun h number
    rw [insert_self, assign, Function.update_self, hk] at hself
    exact Option.some.inj hself
  · intro h
    unfold insert assign
    cases hk : l number with
    | none => rfl
    | some k => rw [h k hk, Option.getD_some]

end KeyList

/-! ### The edits of a MANIFEST -/

namespace VersionEdit

/-- An edit as its constructor leaves it. What the members behind an unset flag hold is never
looked at. -/
def new : VersionEdit :=
  { logSecret := ⟨0, ⟨Bytes.zeros 32, rfl⟩, ⟨Bytes.zeros 16, rfl⟩⟩,
    sstKey := ⟨Bytes.zeros 32, rfl⟩, sstFileNumber := 0, sstDeleteFileNumber := 0 }

/-- What an edit does to the keys of tables, given what becomes of a key that it adds. -/
def applyKeys (add : KeyList → UInt64 → Bytes → KeyList) (l : KeyList) (e : VersionEdit) :
    KeyList :=
  let l := if e.isSstKey then add l e.sstFileNumber e.sstKey.val else l
  if e.isSstDelete then l.erase e.sstDeleteFileNumber else l

/-- The part of `VersionEditHandler::ApplyVersionEdit` for the keys of tables, which goes
through `AddSSTKeyToList` and `DeleteSSTKeyFromList`. -/
def applyToKeyList (l : KeyList) (e : VersionEdit) : KeyList := applyKeys KeyList.insert l e

/-- An edit read back does to the keys what the edit that was written does. -/
theorem applyToKeyList_of_sameFields {e e' : VersionEdit} (h : e'.SameFields e) (l : KeyList) :
    e'.applyToKeyList l = e.applyToKeyList l := by
  have hsec := h.2
  unfold secretFields at hsec
  unfold applyToKeyList applyKeys
  cases hlog : e.isLogSecret <;> cases hkey : e.isSstKey <;> cases hdel : e.isSstDelete <;>
    cases hlog' : e'.isLogSecret <;> cases hkey' : e'.isSstKey <;>
    cases hdel' : e'.isSstDelete <;> simp_all

end VersionEdit

/-- The keys that replaying a MANIFEST leaves. -/
def replayKeys (manifest : List VersionEdit) : KeyList :=
  manifest.foldl (fun l e => e.applyToKeyList l) .empty

/-- The keys that the latest edits about each table name. -/
def latestKeys (manifest : List VersionEdit) : KeyList :=
  manifest.foldl (VersionEdit.applyKeys KeyList.assign) .empty

/-! ### Runs -/

/-- What happens to the keys of tables in a process and, at `restart`, between processes. -/
inductive KeyEvent where
  | generateKey (fileName : Bytes) (newKey : Key)
  | filenameToKey (fileName : Bytes)
  /-- The edit that a flush or a compaction logs for a table it wrote. -/
  | logSstKey (fileNumber : UInt64)
  /-- The edit that is logged for a table whose file was deleted. -/
  | logSstDeletion (fileNumber : UInt64)
  | deleteSstKeyFromList (fileNumber : UInt64)
  /-- The process ends, and the next one replays the MANIFEST. -/
  | restart

/-- The keys in memory and the edits in the MANIFEST. `handedOut` is not part of the program:
it keeps the key that was last handed out for each number, by `GenerateKey` in this process or
by the MANIFEST when it started. -/
structure KeyState where
  keyList : KeyList
  manifest : List VersionEdit
  handedOut : KeyList

namespace KeyState

def start : KeyState := ⟨.empty, [], .empty⟩

/-- `KeyList.find` and the copy of 32 bytes into the edit, in `FlushJob::Run` and
`CompactionJob::InstallCompactionResults`. -/
def findSstKey (s : KeyState) (fileNumber : UInt64) : Outcome Key :=
  match s.keyList fileNumber with
  | some key => key.fetchOctets 0 32
  | none => .error .exit

def step (s : KeyState) : KeyEvent → Outcome KeyState
  | .generateKey fileName newKey =>
      .ok { s with
        keyList := (s.keyList.generateKey fileName newKey).2
        handedOut := s.handedOut.assign (tableFileNameToNumber fileName)
          (s.keyList.generateKey fileName newKey).1.val }
  | .filenameToKey fileName => .ok { s with keyList := (s.keyList.filenameToKey fileName).2 }
  | .logSstKey fileNumber => do
      let key ← s.findSstKey fileNumber
      .ok { s with manifest := s.manifest ++ [VersionEdit.new.addSstKey fileNumber key] }
  | .logSstDeletion fileNumber =>
      .ok { s with manifest := s.manifest ++ [VersionEdit.new.deleteSstKey fileNumber] }
  | .deleteSstKeyFromList fileNumber =>
      .ok { s with
        keyList := s.keyList.deleteSstKeyFromList fileNumber
        handedOut := s.handedOut.erase fileNumber }
  | .restart =>
      .ok { s with keyList := replayKeys s.manifest, handedOut := latestKeys s.manifest }

def run : KeyState → List KeyEvent → Outcome KeyState
  | s, [] => .ok s
  | s, event :: events => do
      let s ← s.step event
      run s events

/-- Replay rebuilds the keys that the latest edits name, and `FilenameToKey` returns the key
that was handed out last. -/
def Faithful (s : KeyState) : Prop :=
  replayKeys s.manifest = latestKeys s.manifest ∧
    ∀ fileName, (s.keyList.filenameToKey fileName).1 =
      (s.handedOut (tableFileNameToNumber fileName)).getD []

/-- No key that is still kept for a number is in the way of another key for it: not in memory
when a key is generated, and not among the edits when one is logged. -/
def Unused (s : KeyState) : KeyEvent → Prop
  | .generateKey fileName newKey => s.keyList.Free (tableFileNameToNumber fileName) newKey.val
  | .logSstKey fileNumber => ∀ key : Key, s.keyList fileNumber = some key.val →
      (replayKeys s.manifest).Free fileNumber key.val
  | _ => True

theorem run_append (s : KeyState) (before after : List KeyEvent) :
    s.run (before ++ after) = s.run before >>= fun s => s.run after := by
  induction before generalizing s with
  | nil => rfl
  | cons event before ih =>
      rw [List.cons_append, run, run]
      cases s.step event with
      | error e => rfl
      | ok s => exact ih s

theorem run_concat (s : KeyState) (before : List KeyEvent) (event : KeyEvent) :
    s.run (before ++ [event]) = s.run before >>= fun s => s.step event := by
  rw [run_append]
  cases s.run before with
  | error e => rfl
  | ok s =>
      rw [Outcome.ok_bind, Outcome.ok_bind, run]
      cases s.step event <;> rfl

theorem replayKeys_concat (manifest : List VersionEdit) (e : VersionEdit) :
    replayKeys (manifest ++ [e]) = e.applyToKeyList (replayKeys manifest) := by
  rw [replayKeys, List.foldl_append]
  rfl

theorem latestKeys_concat (manifest : List VersionEdit) (e : VersionEdit) :
    latestKeys (manifest ++ [e]) = VersionEdit.applyKeys KeyList.assign (latestKeys manifest) e := by
  rw [latestKeys, List.foldl_append]
  rfl

theorem findSstKey_of_some {s : KeyState} {fileNumber : UInt64} {key : Key}
    (h : s.keyList fileNumber = some key.val) : s.findSstKey fileNumber = .ok key := by
  have hlen : 0 + 32 ≤ key.val.length := by rw [key.property]
  have hslice : key.val.slice 0 32 = key.val := by
    rw [Bytes.slice, List.drop_zero, List.take_of_length_le (le_of_eq key.property)]
  rw [findSstKey, h]
  dsimp only
  rw [Bytes.fetchOctets_of_le hlen]
  exact congrArg Except.ok (Subtype.ext hslice)

end KeyState

/-- The strings in it are keys or the empty string. -/
def KeyList.WellSized (l : KeyList) : Prop :=
  ∀ number key, l number = some key → key = [] ∨ key.length = 32

namespace KeyList.WellSized

variable {l : KeyList}

theorem empty : KeyList.WellSized .empty := nofun

theorem insert (h : l.WellSized) (number : UInt64) {key : Bytes}
    (hkey : key = [] ∨ key.length = 32) : (l.insert number key).WellSized := by
  intro m k hk
  by_cases hm : m = number
  · rw [hm, insert_self] at hk
    cases hl : l number with
    | none =>
        rw [hl] at hk
        cases hk
        exact hkey
    | some k' =>
        rw [hl] at hk
        cases hk
        exact h number k' hl
  · rw [insert_of_ne hm] at hk
    exact h m k hk

theorem erase (h : l.WellSized) (number : UInt64) : (l.erase number).WellSized := by
  intro m k hk
  by_cases hm : m = number
  · rw [KeyList.erase, hm, Function.update_self] at hk
    cases hk
  · rw [KeyList.erase, Function.update_of_ne hm] at hk
    exact h m k hk

theorem applyToKeyList (h : l.WellSized) (e : VersionEdit) : (e.applyToKeyList l).WellSized := by
  unfold VersionEdit.applyToKeyList VersionEdit.applyKeys
  dsimp only
  split_ifs
  · exact (h.insert _ (Or.inr e.sstKey.property)).erase _
  · exact h.erase _
  · exact h.insert _ (Or.inr e.sstKey.property)
  · exact h

theorem replayKeys (manifest : List VersionEdit) : (replayKeys manifest).WellSized := by
  induction manifest using List.reverseRecOn with
  | nil => exact empty
  | append_singleton manifest e ih =>
      rw [KeyState.replayKeys_concat]
      exact ih.applyToKeyList e

end KeyList.WellSized

namespace KeyState

theorem keyList_of_findSstKey {s : KeyState} {fileNumber : UInt64} {key : Key}
    (hsize : s.keyList.WellSized) (h : s.findSstKey fileNumber = .ok key) :
    s.keyList fileNumber = some key.val := by
  unfold findSstKey at h
  cases hk : s.keyList fileNumber with
  | none =>
      rw [hk] at h
      cases h
  | some k =>
      rw [hk] at h
      obtain ⟨hle, hslice⟩ := Bytes.fetchOctets_eq_ok h
      rcases hsize fileNumber k hk with rfl | hk32
      · exact absurd hle (by decide)
      · rw [← hslice, Bytes.slice, List.drop_zero, List.take_of_length_le (le_of_eq hk32)]

/-- What holds between the events of a run in which no key is in the way. -/
structure Sound (s : KeyState) : Prop where
  replayed : replayKeys s.manifest = latestKeys s.manifest
  handed : ∀ number, (s.keyList number).getD [] = (s.handedOut number).getD []
  sized : s.keyList.WellSized

theorem Sound.faithful {s : KeyState} (h : s.Sound) : s.Faithful :=
  ⟨h.replayed, fun fileName => h.handed (tableFileNameToNumber fileName)⟩

theorem sound_start : start.Sound := ⟨rfl, fun _ => rfl, .empty⟩

/-- An event keeps the keys sound unless a key is in its way. -/
theorem Sound.step {s s' : KeyState} {event : KeyEvent} (h : s.Sound) (hu : s.Unused event)
    (hs : s.step event = .ok s') : s'.Sound := by
  cases event with
  | generateKey fileName newKey =>
      cases hs
      refine ⟨h.replayed, fun number => ?_, h.sized.insert _ (Or.inr newKey.property)⟩
      have hassign := (KeyList.insert_eq_assign_iff _ _ _).mpr hu
      dsimp only [KeyList.generateKey]
      rw [hassign]
      by_cases hn : number = tableFileNameToNumber fileName
      · rw [hn, KeyList.assign, KeyList.assign, Function.update_self, Function.update_self]
      · rw [KeyList.assign, KeyList.assign, Function.update_of_ne hn, Function.update_of_ne hn]
        exact h.handed number
  | filenameToKey fileName =>
      cases hs
      refine ⟨h.replayed, fun number => ?_, h.sized.insert _ (Or.inl rfl)⟩
      dsimp only [KeyList.filenameToKey]
      rw [← h.handed number]
      by_cases hn : number = tableFileNameToNumber fileName
      · rw [hn, KeyList.insert_self, Option.getD_some]
      · rw [KeyList.insert_of_ne hn]
  | logSstKey fileNumber =>
      obtain ⟨key, hfind, hs⟩ := Outcome.bind_eq_ok.mp hs
      cases hs
      refine ⟨?_, h.handed, h.sized⟩
      have hfree := hu key (keyList_of_findSstKey h.sized hfind)
      rw [replayKeys_concat, latestKeys_concat, ← h.replayed]
      exact (KeyList.insert_eq_assign_iff _ _ _).mpr hfree
  | logSstDeletion fileNumber =>
      cases hs
      refine ⟨?_, h.handed, h.sized⟩
      rw [replayKeys_concat, latestKeys_concat, ← h.replayed]
      rfl
  | deleteSstKeyFromList fileNumber =>
      cases hs
      refine ⟨h.replayed, fun number => ?_, h.sized.erase _⟩
      dsimp only [KeyList.deleteSstKeyFromList]
      by_cases hn : number = fileNumber
      · rw [hn, KeyList.erase, KeyList.erase, Function.update_self, Function.update_self]
      · rw [KeyList.erase, KeyList.erase, Function.update_of_ne hn, Function.update_of_ne hn]
        exact h.handed number
  | restart =>
      cases hs
      exact ⟨h.replayed, fun number => congrArg (fun l => (l number).getD []) h.replayed,
        .replayKeys s.manifest⟩

/-- Where a key is in the way, the event leaves the keys unfaithful. -/
theorem unused_of_faithful {s : KeyState} {event : KeyEvent}
    (h : ∀ s', s.step event = .ok s' → s'.Faithful) : s.Unused event := by
  cases event with
  | generateKey fileName newKey =>
      intro k hk
      have hhand := (h _ rfl).2 fileName
      dsimp only [KeyList.filenameToKey, KeyList.generateKey] at hhand
      rw [KeyList.insert_self, KeyList.assign, Function.update_self, hk] at hhand
      exact hhand
  | logSstKey fileNumber =>
      intro key hkey k hk
      have hstep : s.step (.logSstKey fileNumber) = .ok { s with
          manifest := s.manifest ++ [VersionEdit.new.addSstKey fileNumber key] } := by
        rw [step, findSstKey_of_some hkey]
        rfl
      have hreplay := congrFun (h _ hstep).1 fileNumber
      dsimp only at hreplay
      rw [replayKeys_concat, latestKeys_concat] at hreplay
      have hinsert : (replayKeys s.manifest).insert fileNumber key.val fileNumber =
          (latestKeys s.manifest).assign fileNumber key.val fileNumber := hreplay
      rw [KeyList.insert_self, KeyList.assign, Function.update_self, hk] at hinsert
      exact Option.some.inj hinsert
  | _ => trivial

theorem sound_run {events : List KeyEvent} {s : KeyState} (hrun : start.run events = .ok s)
    (hu : ∀ before event, before ++ [event] <+: events → ∀ s, start.run before = .ok s →
      s.Unused event) : s.Sound := by
  induction events using List.reverseRecOn generalizing s with
  | nil =>
      cases hrun
      exact sound_start
  | append_singleton events event ih =>
      rw [run_concat] at hrun
      obtain ⟨s₀, hrun₀, hstep⟩ := Outcome.bind_eq_ok.mp hrun
      have hsound := ih hrun₀ fun before e hpre s hs =>
        hu before e (hpre.trans (List.prefix_append events [event])) s hs
      exact hsound.step (hu events event (List.prefix_refl _) s₀ hrun₀) hstep

end KeyState

open KeyState in
/-- In every state that a run reaches the keys are faithful, exactly when in none of its steps
a key is in the way: none that is still kept for the number when one is generated for it, and
none that the earlier edits still give it when one is logged. -/
theorem keyList_faithful_iff (events : List KeyEvent) :
    (∀ before, before <+: events → ∀ s, start.run before = .ok s → s.Faithful) ↔
      ∀ before event, before ++ [event] <+: events → ∀ s, start.run before = .ok s →
        s.Unused event := by
  constructor
  · intro h before event hpre s hs
    apply unused_of_faithful
    intro s' hstep
    apply h (before ++ [event]) hpre s'
    rw [run_concat, hs]
    exact hstep
  · intro h before hpre s hs
    exact (sound_run hs fun b e hb => h b e (hb.trans hpre)).faithful

/-- The file name of table 7. -/
def tableSeven : Bytes := [0x30, 0x30, 0x30, 0x30, 0x30, 0x37, 0x2e, 0x73, 0x73, 0x74]

theorem length_otherKey : (Bytes.zeros 32).length = 32 := rfl

def otherKey : Key := ⟨Bytes.zeros 32, length_otherKey⟩

/-- The number of a table is used again, after the job that wrote it failed. -/
def numberUsedAgain : List KeyEvent :=
  [.generateKey tableSeven sampleKey, .generateKey tableSeven otherKey]

/-- A number that is used again keeps the key of its first use. -/
theorem numberUsedAgain_not_faithful :
    ¬∀ before, before <+: numberUsedAgain → ∀ s, KeyState.start.run before = .ok s →
      s.Faithful := by
  intro h
  have hkeep := (h numberUsedAgain (List.prefix_refl _) _ rfl).2 tableSeven
  have hne : sampleKey.val ≠ otherKey.val := by decide
  exact hne hkeep

end Tweezer
