import Tweezer.LogRoundTrip

/-!
# Appends that fail

`AddRecord` on a file of which some `Append`s and `Flush`es fail. A fragment is three appends: the
status of the second is overwritten by that of the third, and `block_offset_` and
`previous_mac` move on whatever the three return, so a failure is only harmless where the file
has got all that the writer takes it to have.
-/

namespace Tweezer.Log

/-- The fault that the append after the next `i` meets. -/
def faultAt (faults : List (Option ℕ)) (i : ℕ) : Option ℕ := faults[i]?.join

@[simp] theorem faultAt_nil (i : ℕ) : faultAt [] i = none := rfl

theorem faultAt_drop (faults : List (Option ℕ)) (i j : ℕ) :
    faultAt (faults.drop i) j = faultAt faults (i + j) := by
  rw [faultAt, List.getElem?_drop, faultAt]

/-- An append that meets this fault is accepted, or reports a failure after all `n` bytes have
got to the file. The reader does not get to know the recyclable format, so no failure goes there. -/
def Delivers (recycle : Bool) (n : ℕ) (fault : Option ℕ) : Prop :=
  ∀ k, fault = some k → recycle = false ∧ n ≤ k

/-- The faults that the three appends of a fragment meet. -/
structure PhysicalRecordKept (recycle : Bool) (f : Fragment) (faults : List (Option ℕ)) : Prop where
  header : faultAt faults 0 = none
  payload : Delivers recycle f.payload.length (faultAt faults 1)
  mac : Delivers recycle kMacSize (faultAt faults 2)

/-- The faults behind the one that the zeros before a fragment meet, if there are any. -/
def behindTrailer (recycle : Bool) (off : ℕ) (faults : List (Option ℕ)) : List (Option ℕ) :=
  if 0 < trailer recycle off then faults.drop 1 else faults

/-- The faults that the appends of these fragments of a record meet, and the flush behind them.
Of zeros that fail none may get to the file. -/
def FragmentsKept (recycle manualFlush : Bool) : ℕ → List Fragment → List (Option ℕ) → Prop
  | _, [], faults => recycle = true → manualFlush = false → faultAt faults 0 = none
  | off, f :: fs, faults =>
      (0 < trailer recycle off ∧ recycle = false ∧ faultAt faults 0 = some 0) ∨
      ((0 < trailer recycle off → faultAt faults 0 = none) ∧
        PhysicalRecordKept recycle f (behindTrailer recycle off faults) ∧
        (faultAt (behindTrailer recycle off faults) 2 = none →
          FragmentsKept recycle manualFlush (f.nextOffset recycle off) fs
            ((behindTrailer recycle off faults).drop 3)))

/-- Where no call fails there is nothing to look out for. -/
theorem fragmentsKept_nil (recycle manualFlush : Bool) (off : ℕ) (fs : List Fragment) :
    FragmentsKept recycle manualFlush off fs [] := by
  induction fs generalizing off with
  | nil => exact fun _ _ => rfl
  | cons f fs ih =>
      have hnone : behindTrailer recycle off [] = [] := by
        unfold behindTrailer
        split_ifs <;> rfl
      have hdelivers : ∀ n, Delivers recycle n none := fun n k hk => nomatch hk
      right
      rw [hnone]
      exact ⟨fun _ => rfl, ⟨rfl, hdelivers _, hdelivers _⟩, fun _ => ih _⟩

theorem WritableFile.append_delivers {f : WritableFile} {data : Bytes}
    (h : ∀ k, faultAt f.faults 0 = some k → data.length ≤ k) :
    f.append data = (if faultAt f.faults 0 = none then .ok else .ioError,
      ⟨f.contents ++ data, f.faults.drop 1⟩) := by
  obtain ⟨contents, faults⟩ := f
  cases faults with
  | nil => rfl
  | cons fault rest =>
      cases fault with
      | none => rfl
      | some k =>
          rw [append]
          dsimp only
          rw [List.take_of_length_le (h k rfl), if_neg (by rintro ⟨⟩)]
          rfl

theorem WritableFile.append_nothing {f : WritableFile} (data : Bytes)
    (h : faultAt f.faults 0 = some 0) :
    f.append data = (.ioError, { f with faults := f.faults.drop 1 }) := by
  obtain ⟨contents, faults⟩ := f
  cases faults with
  | nil => cases h
  | cons fault rest =>
      obtain rfl : fault = some 0 := h
      rw [append]
      dsimp only
      rw [List.take_zero, List.append_nil]
      rfl

theorem WritableFile.flush_eq (f : WritableFile) :
    f.flush = (if faultAt f.faults 0 = none then .ok else .ioError,
      { f with faults := f.faults.drop 1 }) := by
  obtain ⟨contents, faults⟩ := f
  cases faults with
  | nil => rfl
  | cons fault rest =>
      cases fault with
      | none => rfl
      | some k => rfl

namespace Writer

variable (C : Gcm)

/-- The writer with these faults to come. -/
def withFaults (w : Writer) (faults : List (Option ℕ)) : Writer :=
  { w with dest := { w.dest with faults := faults } }

@[simp] theorem withFaults_faults (w : Writer) (faults : List (Option ℕ)) :
    (w.withFaults faults).dest.faults = faults := rfl

theorem puts_withFaults (w : Writer) (faults : List (Option ℕ)) (fs : List Fragment) :
    (w.withFaults faults).puts C fs = (w.puts C fs).withFaults faults := by
  induction fs generalizing w with
  | nil => rfl
  | cons f fs ih =>
      rw [puts, puts, ← ih]
      rfl

/-- Where the zeros are appended, the start of a turn goes to the start of the next fragment. -/
theorem switchBlock_kept {w : Writer} (h : 0 < trailer w.recycleLogFiles w.blockOffset →
    faultAt w.dest.faults 0 = none) :
    w.switchBlock = (.ok, { w with
      dest := ⟨w.dest.contents ++ Bytes.zeros (trailer w.recycleLogFiles w.blockOffset),
        behindTrailer w.recycleLogFiles w.blockOffset w.dest.faults⟩
      blockOffset := startOffset w.recycleLogFiles w.blockOffset }) := by
  by_cases hl : kBlockSize - w.blockOffset < overhead w.recycleLogFiles
  · have ht : trailer w.recycleLogFiles w.blockOffset = kBlockSize - w.blockOffset := if_pos hl
    have hs : startOffset w.recycleLogFiles w.blockOffset = 0 := if_pos hl
    rw [ht] at h
    simp only [switchBlock, behindTrailer, ht, hs]
    rw [if_pos (by exact hl)]
    by_cases hp : 0 < kBlockSize - w.blockOffset
    · rw [if_pos hp, if_pos hp, WritableFile.append_delivers (by rw [h hp]; exact by rintro k ⟨⟩),
        if_pos (h hp)]
    · rw [if_neg hp, if_neg hp, Nat.eq_zero_of_not_pos hp, Bytes.zeros_zero, List.append_nil]
  · have ht : trailer w.recycleLogFiles w.blockOffset = 0 := if_neg hl
    have hs : startOffset w.recycleLogFiles w.blockOffset = w.blockOffset := if_neg hl
    simp only [switchBlock, behindTrailer, ht, hs]
    rw [if_neg (by exact hl), if_neg (Nat.lt_irrefl 0), Bytes.zeros_zero, List.append_nil]

/-- Where none of them is, the writer stays where it was. -/
theorem switchBlock_failed {w : Writer} (hp : 0 < trailer w.recycleLogFiles w.blockOffset)
    (h : faultAt w.dest.faults 0 = some 0) :
    w.switchBlock = (.ioError, w.withFaults (w.dest.faults.drop 1)) := by
  have hl : kBlockSize - w.blockOffset < overhead w.recycleLogFiles := by
    by_contra hl
    rw [trailer, if_neg hl] at hp
    exact Nat.lt_irrefl 0 hp
  rw [trailer, if_pos hl] at hp
  unfold switchBlock
  rw [if_pos (by exact hl), if_pos hp, WritableFile.append_nothing _ h]
  rfl

theorem emitPhysicalRecord_kept {w : Writer} (t : RecordType) (ptr : Bytes)
    (h : PhysicalRecordKept w.recycleLogFiles ⟨t, ptr⟩ w.dest.faults) :
    w.emitPhysicalRecord C t ptr =
      (if faultAt w.dest.faults 2 = none then .ok else .ioError, { w with
        dest := ⟨w.dest.contents ++
          (Fragment.mk t ptr).encode C w.uniqueKey w.logNumber w.previousMac,
          w.dest.faults.drop 3⟩
        blockOffset := w.blockOffset + overhead t.isRecyclable + ptr.length
        previousMac := (Fragment.mk t ptr).mac C w.uniqueKey w.previousMac }) := by
  have ho : w.blockOffset + kMacSize + (t.headerSize + ptr.length) =
      w.blockOffset + overhead t.isRecyclable + ptr.length := by
    rw [overhead_eq]
    omega
  have hheader : ∀ k, faultAt w.dest.faults 0 = some k →
      (C.enc w.uniqueKey (recordHeader t w.logNumber ptr)).length ≤ k := by
    rw [h.header]
    exact fun k hk => nomatch hk
  have hpayload : ∀ k, faultAt (w.dest.faults.drop 1) 0 = some k →
      (C.enc w.uniqueKey ptr).length ≤ k := by
    intro k hk
    rw [faultAt_drop] at hk
    rw [C.length_enc]
    exact (h.payload k hk).2
  have hmac : ∀ k, faultAt ((w.dest.faults.drop 1).drop 1) 0 = some k →
      ((Fragment.mk t ptr).mac C w.uniqueKey w.previousMac).val.length ≤ k := by
    intro k hk
    rw [faultAt_drop, faultAt_drop] at hk
    exact ((Fragment.mk t ptr).mac C w.uniqueKey w.previousMac).property.le.trans (h.mac k hk).2
  unfold emitPhysicalRecord logEncrypt
  dsimp only
  rw [WritableFile.append_delivers hheader, if_pos h.header]
  dsimp only
  have hsecond := WritableFile.append_delivers (f := ⟨w.dest.contents ++
    C.enc w.uniqueKey (recordHeader t w.logNumber ptr), w.dest.faults.drop 1⟩) hpayload
  rw [Option.getD_some, hsecond]
  dsimp only
  rw [← Fragment.mac.eq_def C w.uniqueKey ⟨t, ptr⟩ w.previousMac,
    WritableFile.append_delivers hmac, ho]
  simp only [faultAt_drop, List.drop_drop, Fragment.encode, List.append_assoc]

/-- A turn of the loop of `AddRecord` that meets harmless faults puts its fragment. -/
theorem addRecordLoop_kept_turn {w : Writer} (fuel : ℕ) (left : Bytes) (begin_ : Bool) {n : ℕ}
    (hn : n = min left.length (avail w.recycleLogFiles w.blockOffset))
    {f : Fragment} (hf : f = ⟨.ofPosition w.recycleLogFiles begin_ (left.length == n), left.take n⟩)
    (htrailer : 0 < trailer w.recycleLogFiles w.blockOffset → faultAt w.dest.faults 0 = none)
    {faults : List (Option ℕ)}
    (hfaults : faults = behindTrailer w.recycleLogFiles w.blockOffset w.dest.faults)
    (hkept : PhysicalRecordKept w.recycleLogFiles f faults) :
    w.addRecordLoop C (fuel + 1) left begin_ =
      if faultAt faults 2 = none then
        if 0 < (left.drop n).length then
          ((w.put C f).withFaults (faults.drop 3)).addRecordLoop C fuel (left.drop n) false
        else .ok (.ok, (w.put C f).withFaults (faults.drop 3))
      else .ok (.ioError, (w.put C f).withFaults (faults.drop 3)) := by
  have hmin : (if left.length < avail w.recycleLogFiles w.blockOffset then left.length
      else avail w.recycleLogFiles w.blockOffset) = n := by
    rw [hn]
    split_ifs <;> omega
  have hav : kBlockSize - startOffset w.recycleLogFiles w.blockOffset -
      overhead w.recycleLogFiles = avail w.recycleLogFiles w.blockOffset := rfl
  subst hf
  rw [addRecordLoop, switchBlock_kept htrailer]
  simp only [headerSize_eq, hav, hmin, ← hfaults]
  rw [emitPhysicalRecord_kept C _ _ (by exact hkept)]
  by_cases hmac : faultAt faults 2 = none
  · simp only [if_pos hmac, put, withFaults, Fragment.nextOffset,
      RecordType.isRecyclable_ofPosition, List.append_assoc]
  · simp only [if_neg hmac, put, withFaults, Fragment.nextOffset,
      RecordType.isRecyclable_ofPosition, List.append_assoc]

/-- A call has come to this: the fragments that have got to the file in full, of those that the
record is cut into. -/
structure Emits (recycle manualFlush : Bool) (fs all : List Fragment) (s : IOStatus)
    (faults : List (Option ℕ)) : Prop where
  isPrefix : fs <+: all
  complete : s = .ok → fs = all
  recyclable : recycle = true → s = .ok
  flush : s = .ok → recycle = true → manualFlush = false → faultAt faults 0 = none

theorem emits_failed {recycle : Bool} (manualFlush : Bool) {fs all : List Fragment}
    (h : fs <+: all) (hrecycle : recycle = false) (faults : List (Option ℕ)) :
    Emits recycle manualFlush fs all .ioError faults := by
  refine ⟨h, (fun hs => nomatch hs), ?_, fun hs => nomatch hs⟩
  rw [hrecycle]
  exact fun hr => nomatch hr

theorem recycle_of_mac {recycle : Bool} {f : Fragment} {faults : List (Option ℕ)}
    (h : PhysicalRecordKept recycle f faults) (hmac : faultAt faults 2 ≠ none) :
    recycle = false := by
  obtain ⟨k, hk⟩ := Option.ne_none_iff_exists'.mp hmac
  exact (h.mac k hk).1

/-- The loop of `AddRecord`, if the faults that it meets are harmless. -/
theorem addRecordLoop_kept {w : Writer} (fuel : ℕ) (left : Bytes) (begin_ : Bool)
    (hfuel : left.length + (if avail w.recycleLogFiles w.blockOffset = 0 then 1 else 0) < fuel)
    (hkept : FragmentsKept w.recycleLogFiles w.manualFlush w.blockOffset
      (fragments w.recycleLogFiles begin_ w.blockOffset left) w.dest.faults) :
    ∃ s faults fs, w.addRecordLoop C fuel left begin_ =
        .ok (s, (w.puts C fs).withFaults faults) ∧
      Emits w.recycleLogFiles w.manualFlush fs
        (fragments w.recycleLogFiles begin_ w.blockOffset left) s faults := by
  induction fuel generalizing w left begin_ with
  | zero => omega
  | succ fuel ih =>
      obtain ⟨faults, hfaults⟩ : ∃ faults, faults =
        behindTrailer w.recycleLogFiles w.blockOffset w.dest.faults := ⟨_, rfl⟩
      have hstop : 0 < trailer w.recycleLogFiles w.blockOffset ∧ w.recycleLogFiles = false ∧
          faultAt w.dest.faults 0 = some 0 → ∀ all, ∃ s faults fs,
            w.addRecordLoop C (fuel + 1) left begin_ = .ok (s, (w.puts C fs).withFaults faults) ∧
            Emits w.recycleLogFiles w.manualFlush fs all s faults := by
        rintro ⟨hp, hrecycle, hfault⟩ all
        refine ⟨.ioError, w.dest.faults.drop 1, [], ?_,
          emits_failed w.manualFlush List.nil_prefix hrecycle _⟩
        rw [addRecordLoop, switchBlock_failed hp hfault]
        rfl
      rcases le_or_gt left.length (avail w.recycleLogFiles w.blockOffset) with hle | hlt
      · rw [fragments_of_le hle] at hkept ⊢
        rcases hkept with hkept | ⟨htrailer, hrecord, hflush⟩
        · exact hstop hkept _
        · rw [← hfaults] at hrecord hflush
          have hturn := addRecordLoop_kept_turn C fuel left begin_ (Nat.min_eq_left hle).symm
            (by rw [beq_self_eq_true, List.take_length]) htrailer hfaults hrecord
          rw [List.drop_length, List.length_nil, if_neg (Nat.lt_irrefl 0)] at hturn
          by_cases hmac : faultAt faults 2 = none
          · rw [if_pos hmac] at hturn
            exact ⟨.ok, _, [_], hturn, List.prefix_rfl, fun _ => rfl, fun _ => rfl,
              fun _ => hflush hmac⟩
          · rw [if_neg hmac] at hturn
            exact ⟨.ioError, _, [_], hturn, emits_failed w.manualFlush List.prefix_rfl
              (recycle_of_mac hrecord hmac) _⟩
      · rw [fragments_of_lt hlt] at hkept ⊢
        rcases hkept with hkept | ⟨htrailer, hrecord, hrest⟩
        · exact hstop hkept _
        · rw [← hfaults] at hrecord hrest
          obtain ⟨f, hf⟩ : ∃ f, f = Fragment.mk (.ofPosition w.recycleLogFiles begin_ false)
            (left.take (avail w.recycleLogFiles w.blockOffset)) := ⟨_, rfl⟩
          have hend : (left.length == avail w.recycleLogFiles w.blockOffset) = false := by
            rw [beq_eq_false_iff_ne]
            omega
          have hoff : f.nextOffset w.recycleLogFiles w.blockOffset = kBlockSize := by
            rw [hf, Fragment.nextOffset, List.length_take, Nat.min_eq_left hlt.le,
              startOffset_add_avail]
          rw [← hf] at hrecord hrest ⊢
          have hturn := addRecordLoop_kept_turn C fuel left begin_ (Nat.min_eq_right hlt.le).symm
            (by rw [hend]; exact hf) htrailer hfaults hrecord
          rw [if_pos (show 0 < (left.drop (avail w.recycleLogFiles w.blockOffset)).length by
            rw [List.length_drop]; omega)] at hturn
          by_cases hmac : faultAt faults 2 = none
          · rw [if_pos hmac] at hturn
            rw [hoff] at hrest
            obtain ⟨s, faults', fs, hloop, hemits⟩ :=
              ih (w := (w.put C f).withFaults (faults.drop 3))
                (left.drop (avail w.recycleLogFiles w.blockOffset)) false
                (by
                  have hp := avail_kBlockSize_pos w.recycleLogFiles
                  change _ + (if avail w.recycleLogFiles (f.nextOffset _ _) = 0 then 1 else 0) < _
                  rw [hoff, List.length_drop, if_neg hp.ne']
                  split_ifs at hfuel <;> omega)
                (by
                  change FragmentsKept w.recycleLogFiles w.manualFlush (f.nextOffset _ _)
                    (fragments w.recycleLogFiles false (f.nextOffset _ _) _) _
                  rw [hoff]
                  exact hrest hmac)
            have hall : fragments ((w.put C f).withFaults (faults.drop 3)).recycleLogFiles false
                ((w.put C f).withFaults (faults.drop 3)).blockOffset
                (left.drop (avail w.recycleLogFiles w.blockOffset)) =
                fragments w.recycleLogFiles false kBlockSize
                  (left.drop (avail w.recycleLogFiles w.blockOffset)) := by
              change fragments w.recycleLogFiles false (f.nextOffset _ _) _ = _
              rw [hoff]
            rw [hall] at hemits
            refine ⟨s, faults', f :: fs, ?_, (List.prefix_cons_inj f).mpr hemits.isPrefix, ?_,
              hemits.recyclable, hemits.flush⟩
            · rw [hturn, hloop, puts_withFaults]
              rfl
            · intro hs
              rw [hemits.complete hs]
          · rw [if_neg hmac] at hturn
            exact ⟨.ioError, _, [f], hturn, emits_failed w.manualFlush
              ((List.prefix_cons_inj f).mpr List.nil_prefix) (recycle_of_mac hrecord hmac) _⟩

/-- `AddRecord`, if the faults that it meets are harmless. -/
theorem addRecord_kept {w : Writer} (slice : Bytes)
    (hkept : FragmentsKept w.recycleLogFiles w.manualFlush w.blockOffset
      (fragments w.recycleLogFiles true w.blockOffset slice) w.dest.faults) :
    ∃ s faults fs, w.addRecord C slice = .ok (s, (w.puts C fs).withFaults faults) ∧
      fs <+: fragments w.recycleLogFiles true w.blockOffset slice ∧
      (s = .ok → fs = fragments w.recycleLogFiles true w.blockOffset slice) ∧
      (w.recycleLogFiles = true → s = .ok) := by
  obtain ⟨s, faults, fs, hloop, hemits⟩ := addRecordLoop_kept C (slice.length + 2) slice true
    (by split_ifs <;> omega) hkept
  rw [addRecord, hloop, Outcome.ok_bind]
  cases s with
  | ioError => exact ⟨.ioError, faults, fs, rfl, hemits.isPrefix, hemits.complete,
      hemits.recyclable⟩
  | ok =>
      have hmanual : ((w.puts C fs).withFaults faults).manualFlush = w.manualFlush := by
        rw [puts_eq]
        rfl
      dsimp only
      cases hflush : w.manualFlush with
      | true =>
          rw [if_pos (hmanual.trans hflush)]
          exact ⟨.ok, faults, fs, rfl, hemits.isPrefix, hemits.complete, fun _ => rfl⟩
      | false =>
          rw [if_neg (by rw [hmanual, hflush]; exact Bool.false_ne_true), WritableFile.flush_eq]
          refine ⟨_, faults.drop 1, fs, rfl, hemits.isPrefix, fun _ => hemits.complete rfl, ?_⟩
          intro hrecycle
          exact if_pos (hemits.flush rfl hrecycle hflush)

end Writer

end Tweezer.Log
