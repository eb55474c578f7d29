import Tweezer.BlockCursor

/-!
# Data blocks from a host that does not know the key

What an iterator exposes of any bytes that are served as a data block, if only strings that were
MACed under the key of the table verify. The MAC of an entry covers its key and its ciphertext in
one string, without their lengths, and the metadata that says where the key ends, how many
entries there are and in which order is under no MAC.
-/

namespace Tweezer

/-- `NewDataIterator` with an iterator that is used again: what it had of its last block stays. -/
def EncryptedBlock.newDataIteratorOn (C : Gcm) (u : Comparator) (globalSeqno : ℕ)
    (b : EncryptedBlock) (it : EncryptedDataBlockIter) : Outcome EncryptedDataBlockIter :=
  let size := if b.contents.length < 4 then 0 else b.contents.length
  if size < 2 * 4 then .ok (it.invalidate (.corruption "bad block contents"))
  else
    { it with
      data := some b.contents, restarts := 0, current := 0, globalSeqno := globalSeqno }.ready
      C u b.contents b.sstKey

theorem newDataIteratorOn_fresh (C : Gcm) (u : Comparator) (globalSeqno : ℕ) (b : EncryptedBlock) :
    b.newDataIteratorOn C u globalSeqno .fresh = b.newDataIterator C u globalSeqno := rfl

/-- What is done with an iterator: it is given the next block, whatever the host serves as such,
it is moved, and the entry it stands at is read. -/
inductive BlockStep where
  | load (contents : Bytes)
  | call (op : OrderedCursor.Op InternalKey)
  | read
  deriving DecidableEq

namespace EncryptedDataBlockIter

variable (C : Gcm) (digest : Digest) (u : Comparator) (sstKey : Key) (globalSeqno : ℕ)

/-- A step, with the entry that is read. Callers ask `Valid()` first. -/
def step (fuel : ℕ) (it : EncryptedDataBlockIter) :
    BlockStep → Outcome (List (Bytes × Bytes) × EncryptedDataBlockIter)
  | .load contents => do
      let it ← (EncryptedBlock.mk contents sstKey).newDataIteratorOn C u globalSeqno it
      .ok ([], it)
  | .call op => do
      let it ← it.call u fuel op
      .ok ([], it)
  | .read =>
      if it.valid then do
        let (value, it) ← it.getValue C digest
        .ok ([(it.key, value)], it)
      else .ok ([], it)

/-- The string that `Updatevalue` computes the MAC of. -/
def macInput (it : EncryptedDataBlockIter) : Outcome Bytes := do
  let e ← it.entryAt it.currentIndex
  let data ← match it.data with
    | some data => .ok data
    | none => .error .outOfBuffer
  let value ← data.fetch e.offset e.size
  .ok (it.key ++ value)

/-- The string whose MAC agrees in a step, if one is checked. -/
def verifiedIn (it : EncryptedDataBlockIter) : BlockStep → List Bytes
  | .load _ => []
  | .call _ => []
  | .read =>
      if it.valid ∧ it.valueDirty ∧ (it.updateValue C digest).isOk then it.macInput.toOption.toList
      else []

/-- The entries that are read in a run, until the read stops with an error. -/
def exposed (fuel : ℕ) : EncryptedDataBlockIter → List BlockStep → List (Bytes × Bytes)
  | _, [] => []
  | it, s :: steps =>
      match it.step C digest u sstKey globalSeqno fuel s with
      | .ok (entries, it) => entries ++ exposed fuel it steps
      | .error _ => []

/-- The strings whose MACs agree in a run. -/
def verified (fuel : ℕ) : EncryptedDataBlockIter → List BlockStep → List Bytes
  | _, [] => []
  | it, s :: steps => it.verifiedIn C digest s ++
      match it.step C digest u sstKey globalSeqno fuel s with
      | .ok (_, it) => verified fuel it steps
      | .error _ => []

end EncryptedDataBlockIter

/-- The strings that are MACed under the key of a table: of each entry the key and the ciphertext
of the value, and the ciphertexts of the other blocks. -/
def tableMacs (C : Gcm) (sstKey : Key) (entries : List (InternalKey × Bytes))
    (metaBlocks : List Bytes) : List Bytes :=
  entries.map (fun e => e.1.val ++ C.enc sstKey e.2) ++ metaBlocks.map (C.enc sstKey)

namespace EncryptedDataBlockIter

section Invariant

variable (C : Gcm) (digest : Digest) (u : Comparator) (sstKey : Key) (globalSeqno : ℕ)
  {it it' : EncryptedDataBlockIter}

/-- The key that `UpdateKey` sets. -/
def currentKey (it : EncryptedDataBlockIter) : Bytes :=
  if it.globalSeqno = kDisableGlobalSequenceNumber then it.rawKey
  else extractUserKey it.rawKey ++
    Bytes.leEncode 8 (packSequenceAndType it.globalSeqno (extractValueType it.rawKey))

/-- The invariant: a value that is not out of date verified with the key that is shown. -/
structure Sound (macs : List Bytes) (it : EncryptedDataBlockIter) : Prop where
  clean : it.valueDirty = false →
    it.key ++ C.enc sstKey it.value ∈ macs ∧ it.key = it.currentKey
  synced : it.valid = true → 0 ≤ it.currentIndex → it.key = it.currentKey
  loaded : it.data ≠ none → it.sstKey = sstKey ∧ it.globalSeqno = globalSeqno
  globalSeqno_eq : it.valueDirty = false → it.globalSeqno = globalSeqno

/-- How an operation moves the iterator: either the value goes out of date, or all stays. -/
structure Moves (it it' : EncryptedDataBlockIter) : Prop where
  data : it'.data = it.data
  sstKey : it'.sstKey = it.sstKey
  globalSeqno : it'.globalSeqno = it.globalSeqno
  key : it'.key = it.key
  value : it'.value = it.value
  dirty : it'.valueDirty = true ∨ (it'.valueDirty = it.valueDirty ∧ it'.rawKey = it.rawKey)

variable {C digest u sstKey globalSeqno}

theorem Moves.refl (it : EncryptedDataBlockIter) : it.Moves it :=
  ⟨rfl, rfl, rfl, rfl, rfl, .inr ⟨rfl, rfl⟩⟩

theorem Moves.trans {it'' : EncryptedDataBlockIter} (h : it.Moves it') (h' : it'.Moves it'') :
    it.Moves it'' := by
  refine ⟨h'.data.trans h.data, h'.sstKey.trans h.sstKey, h'.globalSeqno.trans h.globalSeqno,
    h'.key.trans h.key, h'.value.trans h.value, ?_⟩
  rcases h'.dirty with hdirty | ⟨hdirty, hraw⟩
  · exact .inl hdirty
  · rcases h.dirty with hdirty' | ⟨hdirty', hraw'⟩
    · exact .inl (hdirty.trans hdirty')
    · exact .inr ⟨hdirty.trans hdirty', hraw.trans hraw'⟩

theorem moves_moveTo {i : ℤ} (h : it.moveTo i = .ok it') : it.Moves it' := by
  obtain ⟨e, -, h⟩ := Outcome.bind_eq_ok.mp h
  cases h
  exact ⟨rfl, rfl, rfl, rfl, rfl, .inl rfl⟩

theorem moves_nextImpl (h : it.nextImpl = .ok it') : it.Moves it' := by
  unfold nextImpl at h
  split_ifs at h
  · exact moves_moveTo h
  · cases h
    exact ⟨rfl, rfl, rfl, rfl, rfl, .inr ⟨rfl, rfl⟩⟩

theorem moves_prevImpl (h : it.prevImpl = .ok it') : it.Moves it' := by
  unfold prevImpl at h
  split_ifs at h <;> exact moves_moveTo h

theorem moves_seekToFirstImpl (h : it.seekToFirstImpl = .ok it') : it.Moves it' := by
  unfold seekToFirstImpl at h
  cases hdata : it.data with
  | none =>
      rw [hdata] at h
      cases h
      exact .refl _
  | some data =>
      rw [hdata] at h
      have hmoves := moves_nextImpl h
      exact ⟨hmoves.data.trans hdata.symm, hmoves.sstKey, hmoves.globalSeqno, hmoves.key, hmoves.value,
        hmoves.dirty⟩

theorem moves_seekToLastImpl (h : it.seekToLastImpl = .ok it') : it.Moves it' := by
  unfold seekToLastImpl at h
  cases hdata : it.data with
  | none =>
      rw [hdata] at h
      cases h
      exact .refl _
  | some data =>
      rw [hdata] at h
      have hmoves := moves_prevImpl h
      exact ⟨hmoves.data.trans hdata.symm, hmoves.sstKey, hmoves.globalSeqno, hmoves.key, hmoves.value,
        hmoves.dirty⟩

theorem moves_advance {fuel : ℕ} {target : Bytes} (h : it.advance u target fuel = .ok it') :
    it.Moves it' := by
  induction fuel generalizing it with
  | zero => cases h
  | succ fuel ih =>
      rw [advance] at h
      split_ifs at h
      · cases h
        exact .refl _
      · obtain ⟨it₁, hnext, h⟩ := Outcome.bind_eq_ok.mp h
        exact (moves_nextImpl hnext).trans (ih h)
      · cases h
        exact .refl _

theorem moves_retreat {fuel : ℕ} {target : Bytes} (h : it.retreat u target fuel = .ok it') :
    it.Moves it' := by
  induction fuel generalizing it with
  | zero => cases h
  | succ fuel ih =>
      rw [retreat] at h
      split_ifs at h
      · obtain ⟨it₁, hprev, h⟩ := Outcome.bind_eq_ok.mp h
        exact (moves_prevImpl hprev).trans (ih h)
      · cases h
        exact .refl _

/-- The search changes the index and the raw key only, and ends in front of an entry. -/
theorem narrow_spec {fuel : ℕ} {start end_ : ℤ} (hstart : 0 ≤ start) (hle : start ≤ end_)
    (h : it.narrow u fuel start end_ = .ok it') :
    (∃ i k, it' = { it with currentIndex := i, rawKey := k }) ∧
      it'.currentIndex < (it.keyOffsetMap.length : ℤ) - 1 := by
  induction fuel generalizing it start end_ with
  | zero => cases h
  | succ fuel ih =>
      rw [narrow] at h
      obtain ⟨e, hentry, h⟩ := Outcome.bind_eq_ok.mp h
      have hmiddle : start ≤ (start + end_).tdiv 2 ∧ (start + end_).tdiv 2 ≤ end_ := by
        rw [Int.tdiv_eq_ediv_of_nonneg (by omega)]
        omega
      have hlt : (start + end_).tdiv 2 < (it.keyOffsetMap.length : ℤ) := by
        unfold entryAt at hentry
        split_ifs at hentry with hpos
        cases hget : it.keyOffsetMap[((start + end_).tdiv 2).toNat]? with
        | none =>
            rw [hget] at hentry
            cases hentry
        | some e' =>
            have hsize := (List.getElem?_eq_some_iff.mp hget).1
            omega
      dsimp only at h
      split_ifs at h with hlower hnear
      · obtain ⟨⟨i, k, rfl⟩, hindex⟩ := ih (by omega) hmiddle.2 h
        exact ⟨⟨i, k, rfl⟩, hindex⟩
      · cases h
        exact ⟨⟨_, _, rfl⟩, by dsimp only; omega⟩
      · obtain ⟨⟨i, k, rfl⟩, hindex⟩ := ih hstart (by omega) h
        exact ⟨⟨i, k, rfl⟩, hindex⟩

/-- After a search the value is out of date. -/
theorem moves_seekImpl {fuel : ℕ} {target : Bytes} (h : it.seekImpl u fuel target = .ok it') :
    it.Moves it' := by
  obtain ⟨it₁, hnarrow, h⟩ := Outcome.bind_eq_ok.mp h
  obtain ⟨it₂, hnext, hadvance⟩ := Outcome.bind_eq_ok.mp h
  obtain ⟨⟨i, k, rfl⟩, hindex⟩ := narrow_spec le_rfl (Int.natCast_nonneg _) hnarrow
  rw [nextImpl, if_pos hindex] at hnext
  obtain ⟨e, -, hmoved⟩ := Outcome.bind_eq_ok.mp hnext
  have hmoves : it.Moves it₂ := by
    cases hmoved
    exact ⟨rfl, rfl, rfl, rfl, rfl, .inl rfl⟩
  exact hmoves.trans (moves_advance hadvance)

theorem moves_seekForPrevImpl {fuel : ℕ} {target : Bytes}
    (h : it.seekForPrevImpl u fuel target = .ok it') : it.Moves it' := by
  obtain ⟨it₁, hseek, h⟩ := Outcome.bind_eq_ok.mp h
  have hmoves := moves_seekImpl hseek
  split_ifs at h
  · exact hmoves.trans (moves_retreat h)
  · exact hmoves.trans (moves_seekToLastImpl h)

/-- Every call of the iterator moves it and then sets the key. -/
theorem moves_call {fuel : ℕ} {op : OrderedCursor.Op InternalKey}
    (h : it.call u fuel op = .ok it') : ∃ it₁, it.Moves it₁ ∧ it' = it₁.updateKey := by
  cases op with
  | seekToFirst =>
      obtain ⟨it₁, hmove, h⟩ := Outcome.bind_eq_ok.mp h
      exact ⟨it₁, moves_seekToFirstImpl hmove, (Except.ok.inj h).symm⟩
  | seekToLast =>
      obtain ⟨it₁, hmove, h⟩ := Outcome.bind_eq_ok.mp h
      exact ⟨it₁, moves_seekToLastImpl hmove, (Except.ok.inj h).symm⟩
  | seek t =>
      obtain ⟨it₁, hmove, h⟩ := Outcome.bind_eq_ok.mp h
      exact ⟨it₁, moves_seekImpl hmove, (Except.ok.inj h).symm⟩
  | seekForPrev t =>
      obtain ⟨it₁, hmove, h⟩ := Outcome.bind_eq_ok.mp h
      exact ⟨it₁, moves_seekForPrevImpl hmove, (Except.ok.inj h).symm⟩
  | next =>
      obtain ⟨it₁, hmove, h⟩ := Outcome.bind_eq_ok.mp h
      exact ⟨it₁, moves_nextImpl hmove, (Except.ok.inj h).symm⟩
  | prev =>
      obtain ⟨it₁, hmove, h⟩ := Outcome.bind_eq_ok.mp h
      exact ⟨it₁, moves_prevImpl hmove, (Except.ok.inj h).symm⟩

variable {macs : List Bytes} {steps : List BlockStep} {fuel : ℕ}

@[simp] theorem updateKey_valueDirty : it.updateKey.valueDirty = it.valueDirty := by
  obtain ⟨k, hk⟩ := updateKey_eq it
  rw [hk]

theorem updateKey_key_of_valid (h : it.valid = true) : it.updateKey.key = it.currentKey := by
  rw [updateKey, if_pos h]
  rfl

theorem Sound.call {op : OrderedCursor.Op InternalKey} (hs : it.Sound C sstKey globalSeqno macs)
    (h : it.call u fuel op = .ok it') : it'.Sound C sstKey globalSeqno macs := by
  obtain ⟨it₁, hmoves, rfl⟩ := moves_call h
  obtain ⟨k, hk⟩ := updateKey_eq it₁
  have hraw : it₁.updateKey.currentKey = it₁.currentKey := by
    rw [hk]
    rfl
  have hclean : it₁.valueDirty = false → it.valueDirty = false ∧ it₁.currentKey = it.currentKey := by
    intro hdirty
    rcases hmoves.dirty with hdirty' | ⟨hdirty', hraw'⟩
    · exact absurd (hdirty'.symm.trans hdirty) (by decide)
    · refine ⟨hdirty'.symm.trans hdirty, ?_⟩
      rw [currentKey, currentKey, hraw', hmoves.globalSeqno]
  constructor
  · intro hdirty
    rw [updateKey_valueDirty] at hdirty
    obtain ⟨hdirty', hcurrent⟩ := hclean hdirty
    obtain ⟨hmac, hkey⟩ := hs.clean hdirty'
    have hsame : it₁.updateKey.key = it.key := by
      by_cases hv : it₁.valid = true
      · rw [updateKey_key_of_valid hv, hcurrent, hkey]
      · rw [updateKey, if_neg hv, hmoves.key]
    rw [hsame, hraw, hcurrent]
    refine ⟨?_, hkey⟩
    have hvalue : it₁.updateKey.value = it.value := by
      rw [hk]
      exact hmoves.value
    rwa [hvalue]
  · intro hv _
    rw [updateKey_valid] at hv
    rw [updateKey_key_of_valid hv, hraw]
  · intro hdata
    rw [hk] at hdata ⊢
    obtain ⟨hkey, hseqno⟩ := hs.loaded (hmoves.data ▸ hdata)
    exact ⟨hmoves.sstKey.trans hkey, hmoves.globalSeqno.trans hseqno⟩
  · intro hdirty
    rw [updateKey_valueDirty] at hdirty
    rw [hk]
    exact hmoves.globalSeqno.trans (hs.globalSeqno_eq (hclean hdirty).1)

theorem Sound.load {contents : Bytes} (hs : it.Sound C sstKey globalSeqno macs)
    (h : (EncryptedBlock.mk contents sstKey).newDataIteratorOn C u globalSeqno it = .ok it') :
    it'.Sound C sstKey globalSeqno macs := by
  have hcurrent : it.valueDirty = false → it.globalSeqno = globalSeqno := hs.globalSeqno_eq
  unfold EncryptedBlock.newDataIteratorOn at h
  dsimp only at h
  by_cases hsize : (if contents.length < 4 then 0 else contents.length) < 2 * 4
  · rw [if_pos hsize] at h
    cases h
    refine ⟨hs.clean, ?_, fun hdata => absurd rfl hdata, hcurrent⟩
    intro hv
    exact absurd hv (by simp [valid, invalidate])
  · rw [if_neg hsize] at h
    obtain ⟨footer, -, h⟩ := Outcome.bind_eq_ok.mp h
    obtain ⟨encBuf, -, h⟩ := Outcome.bind_eq_ok.mp h
    obtain ⟨table, -, h⟩ := Outcome.bind_eq_ok.mp h
    cases h
    refine ⟨?_, ?_, fun _ => ⟨rfl, rfl⟩, fun _ => rfl⟩
    swap
    · intro _ hindex
      exact absurd (show (0 : ℤ) ≤ -1 from hindex) (by decide)
    intro hdirty
    obtain ⟨hmac, hkey⟩ := hs.clean hdirty
    refine ⟨hmac, ?_⟩
    rw [currentKey, hcurrent hdirty] at hkey
    exact hkey

/-- Where a value is filled in, its MAC has agreed with the key that is shown. -/
theorem updateValue_spec (h : it.updateValue C digest = .ok it') :
    0 ≤ it.currentIndex ∧ it.data ≠ none ∧
      it.macInput = .ok (it.key ++ C.enc it.sstKey it'.value) ∧
      it' = { it with value := it'.value, valueDirty := false } := by
  obtain ⟨e, hentry, h⟩ := Outcome.bind_eq_ok.mp h
  have hindex : 0 ≤ it.currentIndex := by
    unfold entryAt at hentry
    split_ifs at hentry with hindex
    exact hindex
  cases hdata : it.data with
  | none =>
      rw [hdata] at h
      cases h
  | some data =>
      rw [hdata] at h
      obtain ⟨data', hdata', h⟩ := Outcome.bind_eq_ok.mp h
      cases hdata'
      obtain ⟨value, hvalue, h⟩ := Outcome.bind_eq_ok.mp h
      obtain ⟨hmac, -, h⟩ := Outcome.bind_eq_ok.mp h
      split_ifs at h
      cases h
      refine ⟨hindex, Option.some_ne_none data, ?_, rfl⟩
      rw [macInput, hentry, Outcome.ok_bind, hdata]
      dsimp only
      rw [Outcome.ok_bind, hvalue, Outcome.ok_bind, C.enc_dec]

/-- A read exposes an entry whose MAC has agreed, now or before. -/
theorem Sound.read (hs : it.Sound C sstKey globalSeqno macs) {entries : List (Bytes × Bytes)}
    (hideal : ∀ s ∈ it.verifiedIn C digest .read, s ∈ macs)
    (h : it.step C digest u sstKey globalSeqno fuel .read = .ok (entries, it')) :
    it'.Sound C sstKey globalSeqno macs ∧
      ∀ e ∈ entries, e.1 ++ C.enc sstKey e.2 ∈ macs := by
  rw [step] at h
  by_cases hv : it.valid = true
  · rw [if_pos hv] at h
    obtain ⟨⟨value, it₁⟩, hget, h⟩ := Outcome.bind_eq_ok.mp h
    cases h
    unfold getValue at hget
    by_cases hdirty : it.valueDirty = true
    · rw [if_pos hdirty] at hget
      obtain ⟨it₂, hupdate, hget⟩ := Outcome.bind_eq_ok.mp hget
      cases hget
      obtain ⟨hindex, hdata, hinput, hit'⟩ := updateValue_spec hupdate
      obtain ⟨hsst, hseqno⟩ := hs.loaded hdata
      rw [hsst] at hinput
      have hmem : it.key ++ C.enc sstKey it'.value ∈ macs := by
        apply hideal
        rw [verifiedIn, if_pos ⟨hv, hdirty, by rw [hupdate]; rfl⟩, hinput]
        exact List.mem_singleton_self _
      have hkey := hs.synced hv hindex
      rw [hit'] at hmem ⊢
      refine ⟨⟨fun _ => ⟨hmem, hkey⟩, fun _ _ => hkey, fun _ => ⟨hsst, hseqno⟩, fun _ => hseqno⟩,
        ?_⟩
      intro e he
      rw [List.mem_singleton.mp he]
      exact hmem
    · rw [if_neg hdirty] at hget
      cases hget
      refine ⟨hs, ?_⟩
      intro e he
      rw [List.mem_singleton.mp he]
      exact (hs.clean (by simpa using hdirty)).1
  · rw [if_neg hv] at h
    cases h
    exact ⟨hs, fun e he => nomatch he⟩

/-- What is exposed in a run has a MAC. -/
theorem Sound.exposed (hs : it.Sound C sstKey globalSeqno macs)
    (hideal : ∀ s ∈ it.verified C digest u sstKey globalSeqno fuel steps, s ∈ macs) :
    ∀ e ∈ it.exposed C digest u sstKey globalSeqno fuel steps, e.1 ++ C.enc sstKey e.2 ∈ macs := by
  induction steps generalizing it with
  | nil => exact fun e he => nomatch he
  | cons s steps ih =>
      rw [verified] at hideal
      rw [EncryptedDataBlockIter.exposed]
      cases hstep : it.step C digest u sstKey globalSeqno fuel s with
      | error e => exact fun e he => nomatch he
      | ok result =>
          obtain ⟨entries, it'⟩ := result
          rw [hstep] at hideal
          have hnow : it'.Sound C sstKey globalSeqno macs ∧
              ∀ e ∈ entries, e.1 ++ C.enc sstKey e.2 ∈ macs := by
            cases s with
            | load contents =>
                obtain ⟨it₁, hload, h⟩ := Outcome.bind_eq_ok.mp hstep
                cases h
                exact ⟨hs.load hload, fun e he => nomatch he⟩
            | call op =>
                obtain ⟨it₁, hcall, h⟩ := Outcome.bind_eq_ok.mp hstep
                cases h
                exact ⟨hs.call hcall, fun e he => nomatch he⟩
            | read => exact hs.read (fun s hs => hideal s (List.mem_append_left _ hs)) hstep
          have hrest := ih hnow.1 fun s hs => hideal s (List.mem_append_right _ hs)
          intro e he
          rcases List.mem_append.mp he with he | he
          · exact hnow.2 e he
          · exact hrest e he

theorem sound_fresh : fresh.Sound C sstKey globalSeqno macs :=
  ⟨(fun h => nomatch h), (fun h => nomatch h), (fun h => absurd rfl h), (fun h => nomatch h)⟩

end Invariant

end EncryptedDataBlockIter

/-- Of any bytes that are served as data blocks of a table, an entry that is read is one that
was added, but for where its key ends and its ciphertext begins, or has the ciphertext of
another block. -/
theorem exposed_of_macIdeal (C : Gcm) (digest : Digest) (u : Comparator) (sstKey : Key)
    (globalSeqno : ℕ) (entries : List (InternalKey × Bytes)) (metaBlocks : List Bytes) (fuel : ℕ)
    (steps : List BlockStep)
    (hideal : ∀ s ∈ EncryptedDataBlockIter.fresh.verified C digest u sstKey globalSeqno fuel steps,
      s ∈ tableMacs C sstKey entries metaBlocks) :
    ∀ e ∈ EncryptedDataBlockIter.fresh.exposed C digest u sstKey globalSeqno fuel steps,
      (∃ a ∈ entries, e.1 ++ C.enc sstKey e.2 = a.1.val ++ C.enc sstKey a.2 ∧
        (e.1.length = a.1.val.length → e = (a.1.val, a.2))) ∨
      ∃ b ∈ metaBlocks, e.1 ++ C.enc sstKey e.2 = C.enc sstKey b := by
  intro e he
  have hmac := EncryptedDataBlockIter.sound_fresh.exposed hideal e he
  rcases List.mem_append.mp hmac with hentry | hmeta
  · obtain ⟨a, ha, heq⟩ := List.mem_map.mp hentry
    refine .inl ⟨a, ha, heq.symm, ?_⟩
    intro hlength
    obtain ⟨hkey, hvalue⟩ := List.append_inj heq.symm hlength
    have hplain := congrArg (C.dec sstKey) hvalue
    rw [C.dec_enc, C.dec_enc] at hplain
    exact Prod.ext hkey hplain
  · obtain ⟨b, hb, heq⟩ := List.mem_map.mp hmeta
    exact .inr ⟨b, hb, heq.symm⟩

/-- One entry of a table. -/
def putOfA : InternalKey × Bytes := (⟨[97, 1, 1, 0, 0, 0, 0, 0, 0], by decide⟩, [1, 2])

/-- A block with the MAC of that entry, whose metadata moves the first byte of the ciphertext to
the key. -/
def movedSplit : Bytes :=
  let encrypted := sampleGcm.enc sampleKey putOfA.2
  let hmac := sampleDigest sampleKey (putOfA.1.val ++ encrypted)
  let metaBuf := BlockBuilder.metaEntry false [] (putOfA.1.val ++ encrypted.take 1) 1
  encrypted.drop 1 ++ (hmac.val ++ (sampleGcm.enc sampleKey metaBuf ++ Bytes.leEncode 4 49))

def readMovedSplit : List BlockStep := [.load movedSplit, .call .seekToFirst, .read]

theorem verified_readMovedSplit :
    ∀ s ∈ EncryptedDataBlockIter.fresh.verified sampleGcm sampleDigest bytewiseComparator sampleKey
        kDisableGlobalSequenceNumber 0 readMovedSplit,
      s ∈ tableMacs sampleGcm sampleKey [putOfA] [] := by
  decide +kernel

/-- The iterator exposes an entry that was never added. -/
theorem readMovedSplit_exposes_new :
    (∀ s ∈ EncryptedDataBlockIter.fresh.verified sampleGcm sampleDigest bytewiseComparator sampleKey
        kDisableGlobalSequenceNumber 0 readMovedSplit,
      s ∈ tableMacs sampleGcm sampleKey [putOfA] []) ∧
    ¬ ∀ e ∈ EncryptedDataBlockIter.fresh.exposed sampleGcm sampleDigest bytewiseComparator
        sampleKey kDisableGlobalSequenceNumber 0 readMovedSplit,
      ∃ a ∈ [putOfA], e = (a.1.val, a.2) := by
  refine ⟨verified_readMovedSplit, ?_⟩
  decide +kernel

theorem exposed_of_macIdeal_readMovedSplit :
    (∀ s ∈ EncryptedDataBlockIter.fresh.verified sampleGcm sampleDigest bytewiseComparator sampleKey
        kDisableGlobalSequenceNumber 0 readMovedSplit,
      s ∈ tableMacs sampleGcm sampleKey [putOfA] []) ∧
    ∀ e ∈ EncryptedDataBlockIter.fresh.exposed sampleGcm sampleDigest bytewiseComparator sampleKey
        kDisableGlobalSequenceNumber 0 readMovedSplit,
      (∃ a ∈ [putOfA],
        e.1 ++ sampleGcm.enc sampleKey e.2 = a.1.val ++ sampleGcm.enc sampleKey a.2 ∧
          (e.1.length = a.1.val.length → e = (a.1.val, a.2))) ∨
      ∃ b ∈ [], e.1 ++ sampleGcm.enc sampleKey e.2 = sampleGcm.enc sampleKey b :=
  ⟨verified_readMovedSplit,
    exposed_of_macIdeal sampleGcm sampleDigest bytewiseComparator sampleKey
      kDisableGlobalSequenceNumber [putOfA] [] 0 readMovedSplit verified_readMovedSplit⟩

end Tweezer
