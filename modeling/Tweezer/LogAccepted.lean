import Tweezer.LogFailures
import Tweezer.LogTornTail

/-!
# What a log keeps of failed calls

A run of `AddRecord` calls of which some fail leaves records in full and records in part. Where
all faults are harmless the tags still form one chain, and a reader gives up the records that
are there in part and returns the others.
-/

namespace Tweezer.Log

/-- The fragments that calls leave in a file from a block offset on, and the records of which all
fragments are there. -/
inductive Emitted (recycle : Bool) : ℕ → List Fragment → List Bytes → Prop
  | nil (off : ℕ) : Emitted recycle off [] []
  | inFull {off : ℕ} {fs : List Fragment} {found : List Bytes} (b : Bytes) :
      Emitted recycle (offsetAfter recycle off (fragments recycle true off b)) fs found →
      Emitted recycle off (fragments recycle true off b ++ fs) (b :: found)
  | inPart {off : ℕ} {gs ds fs : List Fragment} {d : Fragment} {found : List Bytes} (b : Bytes) :
      fragments recycle true off b = gs ++ d :: ds →
      Emitted recycle (offsetAfter recycle off gs) fs found → Emitted recycle off (gs ++ fs) found

/-- The records of the calls that returned OK. -/
def accepted : List Bytes → List IOStatus → List Bytes
  | r :: rs, .ok :: ss => r :: accepted rs ss
  | _ :: rs, .ioError :: ss => accepted rs ss
  | _, _ => []

/-- A call is accepted after one that failed. -/
def AcceptsAfterFailure (ss : List IOStatus) : Prop :=
  ∃ i j : ℕ, i < j ∧ ss[i]? = some IOStatus.ioError ∧ ss[j]? = some IOStatus.ok

namespace Writer

variable (C : Gcm)

/-- The call meets harmless faults only. -/
def CallKept (w : Writer) (r : Bytes) : Prop :=
  FragmentsKept w.recycleLogFiles w.manualFlush w.blockOffset
    (fragments w.recycleLogFiles true w.blockOffset r) w.dest.faults

/-- So does every call of a run. -/
def RunKept : Writer → List Bytes → Prop
  | _, [] => True
  | w, r :: rs => w.CallKept r ∧ ∀ s w', w.addRecord C r = .ok (s, w') → RunKept w' rs

/-- A call that returns OK has appended the header, the payload and the tag of each fragment of its
record. -/
def OkOnlyInFull : Writer → List Bytes → Prop
  | _, [] => True
  | w, r :: rs => ∀ s w', w.addRecord C r = .ok (s, w') →
      (s = .ok → w'.dest.contents = w.dest.contents ++
        layout C w.uniqueKey w.logNumber w.recycleLogFiles w.blockOffset w.previousMac
          (fragments w.recycleLogFiles true w.blockOffset r)) ∧ OkOnlyInFull w' rs

/-- Where a record is accepted after one that failed, a reader of the file returns every record that
was accepted. -/
def VerifiesAccepted (checksum : Bool) (readNumber : UInt64) (mode : WALRecoveryMode) (w : Writer)
    (rs : List Bytes) : Prop :=
  ∃ ss w', w.addRecords C rs = .ok (ss, w') ∧ (AcceptsAfterFailure ss → ∃ found r,
    (Reader.create (.ofBytes w'.dest.contents) checksum readNumber w.uniqueKey
      w.previousMac).readLog C mode = .ok (found, r) ∧ (accepted rs ss).Sublist found)

theorem okOnlyInFull_of_kept {w : Writer} {rs : List Bytes} (h : w.RunKept C rs) :
    w.OkOnlyInFull C rs := by
  induction rs generalizing w with
  | nil => trivial
  | cons r rs ih =>
      intro s w' hadd
      obtain ⟨s', faults, fs, hkept, -, hfull, -⟩ := addRecord_kept C r h.1
      obtain ⟨rfl, rfl⟩ := Prod.mk.inj (Except.ok.inj (hadd.symm.trans hkept))
      refine ⟨fun hs => ?_, ih (h.2 _ _ hkept)⟩
      rw [hfull hs, puts_eq]
      rfl

/-- What a run with harmless faults leaves. -/
theorem addRecords_kept {w : Writer} {rs : List Bytes} (h : w.RunKept C rs) :
    ∃ ss faults fs found, w.addRecords C rs = .ok (ss, (w.puts C fs).withFaults faults) ∧
      Emitted w.recycleLogFiles w.blockOffset fs found ∧ (accepted rs ss).Sublist found ∧
      (w.recycleLogFiles = true → ∀ s ∈ ss, s = .ok) := by
  induction rs generalizing w with
  | nil => exact ⟨[], w.dest.faults, [], [], rfl, .nil _, List.Sublist.refl _,
      fun _ _ hs => nomatch hs⟩
  | cons r rs ih =>
      obtain ⟨s, faults, gs, hadd, hpre, hfull, hok⟩ := addRecord_kept C r h.1
      obtain ⟨ss, faults', fs, found, hadds, hemitted, hsub, hoks⟩ := ih (h.2 _ _ hadd)
      have hrecycle : ((w.puts C gs).withFaults faults).recycleLogFiles = w.recycleLogFiles := by
        rw [puts_eq]
        rfl
      have hoffset : ((w.puts C gs).withFaults faults).blockOffset =
          offsetAfter w.recycleLogFiles w.blockOffset gs := by
        rw [puts_eq]
        rfl
      rw [hrecycle, hoffset] at hemitted
      rw [hrecycle] at hoks
      rw [puts_withFaults, ← puts_append] at hadds
      have hrun : w.addRecords C (r :: rs) =
          .ok (s :: ss, (w.puts C (gs ++ fs)).withFaults faults') := by
        rw [addRecords, hadd, Outcome.ok_bind]
        dsimp only
        rw [hadds]
        rfl
      have hall : w.recycleLogFiles = true → ∀ s' ∈ s :: ss, s' = .ok := by
        intro hr
        rw [List.forall_mem_cons]
        exact ⟨hok hr, hoks hr⟩
      by_cases hgs : gs = fragments w.recycleLogFiles true w.blockOffset r
      · refine ⟨s :: ss, faults', gs ++ fs, r :: found, hrun, ?_, ?_, hall⟩
        · rw [hgs] at hemitted ⊢
          exact .inFull r hemitted
        · cases s with
          | ok => exact hsub.cons_cons r
          | ioError => exact hsub.cons r
      · obtain ⟨ds, hds⟩ := hpre
        cases ds with
        | nil =>
            rw [List.append_nil] at hds
            exact absurd hds hgs
        | cons d ds =>
            refine ⟨s :: ss, faults', gs ++ fs, found, hrun, .inPart r hds.symm hemitted, ?_, hall⟩
            cases s with
            | ok => exact absurd (hfull rfl) hgs
            | ioError => exact hsub

end Writer

theorem Emitted.congr {recycle : Bool} {off off' : ℕ} {fs : List Fragment} {found : List Bytes}
    (h : Emitted recycle off fs found) (hstart : startOffset recycle off = startOffset recycle off') :
    Emitted recycle off' fs found := by
  induction h generalizing off' with
  | nil => exact .nil off'
  | inFull b hrest ih =>
      rw [offsetAfter_congr hstart (fragments_ne_nil _ _ _ _), fragments_congr hstart] at hrest
      rw [fragments_congr hstart]
      exact .inFull b hrest
  | @inPart off gs ds fs d found b hgs hrest ih =>
      rw [fragments_congr hstart] at hgs
      cases gs with
      | nil => exact .inPart b hgs (ih hstart)
      | cons g gs =>
          rw [offsetAfter_congr hstart (List.cons_ne_nil g gs)] at hrest
          exact .inPart b hgs hrest

theorem Emitted.length_le {recycle : Bool} {off : ℕ} {fs : List Fragment} {found : List Bytes}
    (h : Emitted recycle off fs found) : found.length ≤ fs.length := by
  induction h with
  | nil => exact le_rfl
  | @inFull off fs found b hrest ih =>
      have hpos := List.length_pos_of_ne_nil (fragments_ne_nil recycle true off b)
      rw [List.length_append, List.length_cons]
      omega
  | inPart b hgs hrest ih =>
      rw [List.length_append]
      omega

namespace Reader

variable {C : Gcm} {key : Key} {logNumber : UInt64} (mode : WALRecoveryMode)

/-- The loop of `ReadRecord` with what it has collected, and the records behind it. -/
def readFrom (C : Gcm) (mode : WALRecoveryMode) (bound fuel : ℕ) (a : Assembly) (r : Reader) :
    Outcome (List Bytes × Reader) := do
  let (record, r) ← r.readRecordLoop C mode bound a
  match record with
  | some b => do
      let (bs, r) ← r.readRecords C mode fuel
      .ok (b :: bs, r)
  | none => .ok ([], r)

/-- Whatever was open before, a reader returns the records that are there in full. -/
theorem readFrom_emitted {off : ℕ} {fs : List Fragment} {found : List Bytes}
    (h : Emitted false off fs found) {r : Reader} {m : Mac} (a : Assembly) (bound fuel : ℕ)
    (hs : r.Synced key off m (layout C key logNumber false off m fs))
    (hbound : fs.length < bound) (hfuel : found.length ≤ fuel) :
    ∃ r', readFrom C mode bound fuel a r = .ok (found, r') := by
  induction h generalizing r m a bound fuel with
  | nil off =>
      obtain ⟨bound, rfl⟩ := Nat.exists_eq_add_one.mpr hbound
      obtain ⟨r', hread, -⟩ := readRecordLoop_of_tail (C := C) mode bound a hs (by
        rw [body, hs.remaining]
        simpa [layout] using overhead_pos false)
      exact ⟨r', by rw [readFrom, hread, Outcome.ok_bind]⟩
  | @inFull off fs found b hrest ih =>
      rw [layout_append] at hs
      rw [List.length_append] at hbound
      obtain ⟨fuel, rfl⟩ := Nat.exists_eq_add_one.mpr (Nat.lt_of_lt_of_le Nat.succ_pos' hfuel)
      obtain ⟨r₁, hread, hs₁, -⟩ := readRecordLoop_fragments mode true off b bound a
        (by rintro ⟨⟩) (by omega) hs
      have hlayout := length_le_length_layout C key logNumber false
        (offsetAfter false off (fragments false true off b))
        (macAfter C key m (fragments false true off b)) fs
      obtain ⟨r₂, hrest⟩ := ih .empty (r₁.remaining.length + 2) fuel hs₁
        (by rw [hs₁.remaining]; omega) (Nat.le_of_succ_le_succ hfuel)
      have hrecords : r₁.readRecords C mode (fuel + 1) = .ok (found, r₂) := hrest
      refine ⟨r₂, ?_⟩
      rw [readFrom, hread, Outcome.ok_bind]
      dsimp only
      rw [hrecords, Outcome.ok_bind]
      rfl
  | @inPart off gs ds fs d found b hgs hrest ih =>
      rw [layout_append] at hs
      rw [List.length_append] at hbound
      obtain ⟨bound, rfl⟩ := Nat.exists_eq_add_of_le (show gs.length ≤ bound by omega)
      obtain ⟨a', r₁, hloop, hs₁, -⟩ :=
        readRecordLoop_opens mode true off b bound a (by rintro ⟨⟩) hgs hs
      obtain ⟨r₂, hrest⟩ := ih a' bound fuel hs₁ (by omega) hfuel
      refine ⟨r₂, ?_⟩
      rw [readFrom, hloop]
      exact hrest

/-- A log that calls have left, complete and incomplete records, is read to its end. -/
theorem readLog_emitted {fs : List Fragment} {found : List Bytes} (h : Emitted false 0 fs found)
    (key : Key) (logNumber : UInt64) (m : Mac) (checksum : Bool) (readNumber : UInt64) :
    ∃ r, (create (.ofBytes (layout C key logNumber false 0 m fs)) checksum readNumber key m).readLog
      C mode = .ok (found, r) := by
  have hs := synced_create (layout C key logNumber false kBlockSize m fs) checksum readNumber key m
  have hlayout := length_le_length_layout C key logNumber false kBlockSize m fs
  have hfound := h.length_le
  obtain ⟨r, hread⟩ := readFrom_emitted mode (h.congr (startOffset_kBlockSize_eq false).symm) .empty
    ((layout C key logNumber false kBlockSize m fs).length + 2)
    ((layout C key logNumber false kBlockSize m fs).length + 1) hs (by omega) (by omega)
  refine ⟨r, ?_⟩
  rw [← layout_kBlockSize, readLog, hs.remaining]
  have hfuel := hs.remaining
  unfold readRecords readRecord
  rw [hfuel]
  exact hread

end Reader

/-- In a run of `AddRecord` calls that meet harmless faults only, a call returns OK only if it has
appended its record in full; and a reader returns every record that was accepted, whichever calls
have failed before. -/
theorem Writer.addRecords_reliable (C : Gcm) (key : Key) (mac : Mac) (logNumber : UInt64)
    (recycle manualFlush : Bool) (faults : List (Option ℕ)) (checksum : Bool) (readNumber : UInt64)
    (mode : WALRecoveryMode) (rs : List Bytes)
    (h : (create ⟨[], faults⟩ logNumber recycle manualFlush key mac).RunKept C rs) :
    (create ⟨[], faults⟩ logNumber recycle manualFlush key mac).OkOnlyInFull C rs ∧
      VerifiesAccepted C checksum readNumber mode
        (create ⟨[], faults⟩ logNumber recycle manualFlush key mac) rs := by
  refine ⟨okOnlyInFull_of_kept C h, ?_⟩
  obtain ⟨ss, faults', fs, found, hadds, hemitted, hsub, hok⟩ := addRecords_kept C h
  refine ⟨ss, _, hadds, ?_⟩
  rintro ⟨i, j, -, hfailed, -⟩
  cases hrecycle : recycle with
  | true =>
      have hok := hok hrecycle _ (List.mem_of_getElem? hfailed)
      cases hok
  | false =>
      subst hrecycle
      obtain ⟨r, hread⟩ := Reader.readLog_emitted (C := C) mode hemitted key logNumber mac checksum
        readNumber
      refine ⟨found, r, ?_, hsub⟩
      rw [puts_eq]
      exact hread

/-- The tag of the first record gets to the file though its append fails; the second record is
accepted. -/
theorem Writer.addRecords_reliable_tagInFull :
    (create ⟨[], [none, none, some 16]⟩ 7 false false sampleKey sampleMac).OkOnlyInFull sampleGcm
        [[1], [2]] ∧
      VerifiesAccepted sampleGcm true 7 .kAbsoluteConsistency
        (create ⟨[], [none, none, some 16]⟩ 7 false false sampleKey sampleMac) [[1], [2]] := by
  apply Writer.addRecords_reliable sampleGcm sampleKey sampleMac 7 false false
    [none, none, some 16] true 7 .kAbsoluteConsistency [[1], [2]]
  have hfragments : fragments false true 0 [1] = [⟨.full, [1]⟩] := by
    rw [fragments_of_le (by decide)]
    rfl
  have hfaults : ((create ⟨[], [none, none, some 16]⟩ 7 false false sampleKey
      sampleMac).addRecord sampleGcm [1]).map (fun p => p.2.dest.faults) = .ok [] := by
    decide +kernel
  constructor
  · change FragmentsKept false false 0 (fragments false true 0 [1]) _
    rw [hfragments]
    refine Or.inr ⟨(fun h => nomatch h), ⟨rfl, (fun k hk => nomatch hk), ?_⟩, fun h => nomatch h⟩
    intro k hk
    obtain rfl := Option.some.inj hk
    exact ⟨rfl, le_rfl⟩
  · intro s w' hadd
    rw [hadd] at hfaults
    have hnone : w'.dest.faults = [] := Except.ok.inj hfaults
    refine ⟨?_, fun _ _ _ => trivial⟩
    unfold CallKept
    rw [hnone]
    exact fragmentsKept_nil _ _ _ _

/-- The payload does not get to the file, and the call returns the status of the tag's append. -/
theorem Writer.not_okOnlyInFull_payloadLost :
    ¬(create ⟨[], [none, some 0, none]⟩ 7 false false sampleKey sampleMac).OkOnlyInFull sampleGcm
      [[1]] := by
  intro h
  have hrun : ((create ⟨[], [none, some 0, none]⟩ 7 false false sampleKey sampleMac).addRecord
      sampleGcm [1]).map (fun p => (p.1, p.2.dest.contents.length)) = .ok (.ok, 23) := by
    decide +kernel
  cases hadd : (create ⟨[], [none, some 0, none]⟩ 7 false false sampleKey sampleMac).addRecord
      sampleGcm [1] with
  | error e =>
      rw [hadd] at hrun
      cases hrun
  | ok result =>
      rw [hadd] at hrun
      obtain ⟨hok, hlength⟩ := Prod.mk.inj (Except.ok.inj hrun)
      have hfull := (h _ _ hadd).1 hok
      have hfragments : fragments false true 0 [1] = [⟨.full, [1]⟩] := by
        rw [fragments_of_le (by decide)]
        rfl
      have hlayout : (layout sampleGcm sampleKey 7 false 0 sampleMac
          [⟨.full, [1]⟩]).length = 24 := by
        decide +kernel
      change result.2.dest.contents = layout sampleGcm sampleKey 7 false 0 sampleMac
        (fragments false true 0 [1]) at hfull
      rw [hfragments] at hfull
      rw [hfull, hlayout] at hlength
      cases hlength

end Tweezer.Log
