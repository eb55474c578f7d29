import Tweezer.VersionEditRoundTrip
import Tweezer.WriteBatch

/-!
# What the calls that build a batch put into it

A batch is for a list of records, with lists to go back to. The string of a batch that calls
have built is the encoding of that list, and a handler that iterates over the string is given
the records one by one, whichever calls built them.
-/

namespace Tweezer

namespace BatchRecord

/-- The format has a length for every string of the record. -/
def Short : BatchRecord → Prop
  | put _ key value => key.length < 2 ^ 32 ∧ value.length < 2 ^ 32
  | delete _ key => key.length < 2 ^ 32
  | singleDelete _ key => key.length < 2 ^ 32
  | deleteRange _ beginKey endKey => beginKey.length < 2 ^ 32 ∧ endKey.length < 2 ^ 32
  | merge _ key value => key.length < 2 ^ 32 ∧ value.length < 2 ^ 32
  | putBlobIndex _ key value => key.length < 2 ^ 32 ∧ value.length < 2 ^ 32
  | logData blob => blob.length < 2 ^ 32
  | beginPrepare => True
  | beginPersistedPrepare => True
  | beginUnprepare => True
  | endPrepare xid => xid.length < 2 ^ 32
  | commit xid => xid.length < 2 ^ 32
  | rollback xid => xid.length < 2 ^ 32
  | noop => True

/-- Whether the count of a batch counts the record. -/
def counts : BatchRecord → Bool
  | put .. => true
  | delete .. => true
  | singleDelete .. => true
  | deleteRange .. => true
  | merge .. => true
  | putBlobIndex .. => true
  | _ => false

def flag : BatchRecord → ℕ
  | put .. => ContentFlags.hasPut
  | delete .. => ContentFlags.hasDelete
  | singleDelete .. => ContentFlags.hasSingleDelete
  | deleteRange .. => ContentFlags.hasDeleteRange
  | merge .. => ContentFlags.hasMerge
  | putBlobIndex .. => ContentFlags.hasBlobIndex
  | logData _ => 0
  | beginPrepare => ContentFlags.hasBeginPrepare
  | beginPersistedPrepare => ContentFlags.hasBeginPrepare
  | beginUnprepare => ContentFlags.hasBeginPrepare ||| ContentFlags.hasBeginUnprepare
  | endPrepare _ => ContentFlags.hasEndPrepare
  | commit _ => ContentFlags.hasCommit
  | rollback _ => ContentFlags.hasRollback
  | noop => 0

end BatchRecord

/-! ### Reading one record back -/

def columnFamilyPrefix (columnFamily : UInt32) : Bytes :=
  if columnFamily = 0 then [] else putVarint32 columnFamily.toNat

theorem columnFamilyTag_eq (tag tag' : ℕ) (cf : UInt32) : columnFamilyTag tag tag' cf =
    UInt8.ofNat (if cf = 0 then tag else tag') :: columnFamilyPrefix cf := by
  unfold columnFamilyTag columnFamilyPrefix
  by_cases h : cf = 0
  · rw [if_pos h, if_pos h, if_pos h]
  · rw [if_neg h, if_neg h, if_neg h]

theorem readColumnFamily_written (cf : UInt32) (rest : Bytes) :
    readColumnFamily (cf ≠ 0) (columnFamilyPrefix cf ++ rest) = some (cf, rest) := by
  unfold readColumnFamily columnFamilyPrefix
  by_cases h : cf = 0
  · simp [h]
  · rw [if_neg h, if_pos (by simpa using h)]
    exact getVarint32Of_putVarint32Of cf rest

theorem readKey_put {key : Bytes} (hkey : key.length < 2 ^ 32) (cf : UInt32) (rest : Bytes)
    (msg : String) (make : UInt32 → Bytes → BatchRecord) :
    readKey (cf ≠ 0) (columnFamilyPrefix cf ++ (putLengthPrefixedSlice key ++ rest)) msg make =
      .ok (make cf key, rest) := by
  unfold readKey
  rw [readColumnFamily_written]
  dsimp only
  rw [getString_put hkey]

theorem readKeyValue_put {key value : Bytes} (hkey : key.length < 2 ^ 32)
    (hvalue : value.length < 2 ^ 32) (cf : UInt32) (rest : Bytes) (msg : String)
    (make : UInt32 → Bytes → Bytes → BatchRecord) :
    readKeyValue (cf ≠ 0) (columnFamilyPrefix cf ++
      (putLengthPrefixedSlice key ++ (putLengthPrefixedSlice value ++ rest))) msg make =
      .ok (make cf key value, rest) := by
  unfold readKeyValue
  rw [readColumnFamily_written]
  dsimp only
  rw [getString_put hkey]
  dsimp only
  rw [getString_put hvalue]

theorem readRecord_tag {tag : ℕ} (h : tag < 256) (input : Bytes) :
    readRecord (UInt8.ofNat tag :: input) = readRecordOf tag input := by
  rw [readRecord, UInt8.toNat_ofNat_of_lt' h]

/-- A record whose tag depends on whether its column family is the default one. -/
theorem readRecord_columnFamilyTag {tag tag' : ℕ} (h : tag < 256) (h' : tag' < 256)
    (f : Bool → Bytes → Except String (BatchRecord × Bytes))
    (hread : ∀ input, readRecordOf tag input = f false input)
    (hread' : ∀ input, readRecordOf tag' input = f true input) (cf : UInt32)
    (input : Bytes) : readRecord (columnFamilyTag tag tag' cf ++ input) =
      f (cf ≠ 0) (columnFamilyPrefix cf ++ input) := by
  rw [columnFamilyTag_eq, List.cons_append]
  by_cases hcf : cf = 0
  · rw [if_pos hcf, readRecord_tag h, hread]
    simp [hcf]
  · rw [if_neg hcf, readRecord_tag h', hread']
    simp [hcf]

/-- A record of a transaction: its tag and an identifier. -/
theorem readKey_xid {xid : Bytes} (h : xid.length < 2 ^ 32) (rest : Bytes) (msg : String)
    (make : Bytes → BatchRecord) : readKey false (putLengthPrefixedSlice xid ++ rest) msg
      (fun _ => make) = .ok (make xid, rest) := by
  simp only [readKey, readColumnFamily]
  rw [if_neg Bool.false_ne_true]
  dsimp only
  rw [getString_put h]

/-- What was written is read back, and what follows it is left. -/
theorem readRecord_encode {r : BatchRecord} (h : r.Short) (rest : Bytes) :
    readRecord (r.encode ++ rest) = .ok (r, rest) := by
  cases r with
  | put cf key value =>
      rw [BatchRecord.encode, List.append_assoc, List.append_assoc,
        readRecord_columnFamilyTag (by decide) (by decide)
          (fun c input => readKeyValue c input "bad WriteBatch Put" .put)
          (fun _ => rfl) fun _ => rfl]
      exact readKeyValue_put h.1 h.2 cf rest _ _
  | delete cf key =>
      rw [BatchRecord.encode, List.append_assoc,
        readRecord_columnFamilyTag (by decide) (by decide)
          (fun c input => readKey c input "bad WriteBatch Delete" .delete)
          (fun _ => rfl) fun _ => rfl]
      exact readKey_put h cf rest _ _
  | singleDelete cf key =>
      rw [BatchRecord.encode, List.append_assoc,
        readRecord_columnFamilyTag (by decide) (by decide)
          (fun c input => readKey c input "bad WriteBatch Delete" .singleDelete)
          (fun _ => rfl) fun _ => rfl]
      exact readKey_put h cf rest _ _
  | deleteRange cf beginKey endKey =>
      rw [BatchRecord.encode, List.append_assoc, List.append_assoc,
        readRecord_columnFamilyTag (by decide) (by decide)
          (fun c input => readKeyValue c input "bad WriteBatch DeleteRange" .deleteRange)
          (fun _ => rfl) fun _ => rfl]
      exact readKeyValue_put h.1 h.2 cf rest _ _
  | merge cf key value =>
      rw [BatchRecord.encode, List.append_assoc, List.append_assoc,
        readRecord_columnFamilyTag (by decide) (by decide)
          (fun c input => readKeyValue c input "bad WriteBatch Merge" .merge)
          (fun _ => rfl) fun _ => rfl]
      exact readKeyValue_put h.1 h.2 cf rest _ _
  | putBlobIndex cf key value =>
      rw [BatchRecord.encode, List.append_assoc, List.append_assoc,
        readRecord_columnFamilyTag (by decide) (by decide)
          (fun c input => readKeyValue c input "bad WriteBatch BlobIndex" .putBlobIndex)
          (fun _ => rfl) fun _ => rfl]
      exact readKeyValue_put h.1 h.2 cf rest _ _
  | logData blob => exact readKey_xid h rest _ _
  | beginPrepare => rfl
  | beginPersistedPrepare => rfl
  | beginUnprepare => rfl
  | endPrepare xid => exact readKey_xid h rest _ _
  | commit xid => exact readKey_xid h rest _ _
  | rollback xid => exact readKey_xid h rest _ _
  | noop => rfl

theorem BatchRecord.encode_ne_nil (r : BatchRecord) : r.encode ≠ [] := by
  cases r <;> simp [BatchRecord.encode, columnFamilyTag_eq]

/-! ### Handing out the records -/

def countOf (records : List BatchRecord) : ℕ := records.countP BatchRecord.counts

def encodeAll (records : List BatchRecord) : Bytes := records.flatMap BatchRecord.encode

def flagsOf (records : List BatchRecord) : ℕ :=
  records.foldr (fun r flags => r.flag ||| flags) 0

@[simp] theorem countOf_append (rs ts : List BatchRecord) :
    countOf (rs ++ ts) = countOf rs + countOf ts := List.countP_append

@[simp] theorem encodeAll_append (rs ts : List BatchRecord) :
    encodeAll (rs ++ ts) = encodeAll rs ++ encodeAll ts := List.flatMap_append

@[simp] theorem encodeAll_cons (r : BatchRecord) (rs : List BatchRecord) :
    encodeAll (r :: rs) = r.encode ++ encodeAll rs := List.flatMap_cons

theorem countOf_cons (r : BatchRecord) (rs : List BatchRecord) :
    countOf (r :: rs) = (if r.counts then 1 else 0) + countOf rs := by
  rw [countOf, List.countP_cons, add_comm]
  rfl

theorem length_le_encodeAll (rs : List BatchRecord) : rs.length ≤ (encodeAll rs).length := by
  induction rs with
  | nil => exact Nat.le_refl 0
  | cons r rs ih =>
      have hpos : 0 < r.encode.length := List.length_pos_iff.mpr r.encode_ne_nil
      rw [encodeAll_cons, List.length_append, List.length_cons]
      omega

@[simp] theorem flagsOf_append (rs ts : List BatchRecord) :
    flagsOf (rs ++ ts) = flagsOf rs ||| flagsOf ts := by
  induction rs with
  | nil => simp [flagsOf]
  | cons r rs ih =>
      rw [flagsOf] at ih
      rw [List.cons_append, flagsOf, List.foldr_cons, ih, ← Nat.or_assoc]
      rfl

@[simp] theorem flagsOf_singleton (r : BatchRecord) : flagsOf [r] = r.flag := Nat.or_zero _

def twoTryAgains : BatchStatus :=
  .corruption ("two consecutive TryAgain in WriteBatch handler; " ++
    "this is either a software bug or data corruption.")

section Visiting

variable {σ : Type} (H : Handler σ)

/-- A record that is to be tried again is handed out once more. -/
def handOutAgain (r : BatchRecord) (emptyBatch : Bool) (h : σ) (status : BatchStatus) :
    (BatchStatus × σ) ⊕ (Bool × σ) :=
  let (handlerContinue, h) := H.continues h
  if ¬ handlerContinue then .inl (status, h)
  else
    let (status, emptyBatch, _, h) := H.dispatch r emptyBatch h
    if status.isOk then .inr (emptyBatch, h)
    else if status.isTryAgain then
      let (handlerContinue, h) := H.continues h
      .inl (if handlerContinue then twoTryAgains else status, h)
    else .inl (status, h)

/-- One record: how the iteration ends with it, or how it goes on. -/
def handOut (r : BatchRecord) (emptyBatch : Bool) (h : σ) : (BatchStatus × σ) ⊕ (Bool × σ) :=
  let (handlerContinue, h) := H.continues h
  if ¬ handlerContinue then .inl (.ok, h)
  else
    let (status, emptyBatch, _, h) := H.dispatch r emptyBatch h
    if status.isOk then .inr (emptyBatch, h)
    else if status.isTryAgain then handOutAgain H r emptyBatch h status
    else .inl (status, h)

/-- The records are handed out in order until the iteration ends with one. -/
def visit : List BatchRecord → Bool → σ → BatchStatus × σ
  | [], _, h => (.ok, h)
  | r :: rs, emptyBatch, h =>
      match handOut H r emptyBatch h with
      | .inl result => result
      | .inr (emptyBatch, h) => visit rs emptyBatch h

variable {H}

/-- A record that is taken is found once if it counts, one that is not is not found. -/
theorem Handler.dispatch_found (r : BatchRecord) (emptyBatch : Bool) (h : σ) :
    (H.dispatch r emptyBatch h).2.2.1 =
      if (H.dispatch r emptyBatch h).1.isOk ∧ r.counts then 1 else 0 := by
  cases r <;> simp only [Handler.dispatch, BatchRecord.counts] <;> split_ifs <;> simp_all

open WriteBatch

/-- Behind a refused record the loop goes on only to try it again. -/
theorem iterateTurn_exit {it : Iteration σ} (hok : it.status.isOk = false)
    (hagain : it.status.isTryAgain = false) : iterateTurn H it = .left it := by
  rw [iterateTurn, if_pos (by simp [hok, hagain])]

theorem iterateTurn_end {it : Iteration σ} (hinput : it.input = [])
    (hagain : it.status.isTryAgain = false) : iterateTurn H it = .left it := by
  rw [iterateTurn, if_pos (by simp [hinput, hagain])]

theorem iterateTurn_read {i : Iteration σ} {r : BatchRecord} (hr : r.Short) {rest : Bytes}
    (hstatus : i.status = .ok) (hinput : i.input = r.encode ++ rest) {h : σ}
    (hc : H.continues i.handler = (true, h)) {status : BatchStatus} {emptyBatch : Bool}
    {found : ℕ} {h' : σ} (hd : H.dispatch r i.emptyBatch h = (status, emptyBatch, found, h')) :
    iterateTurn H i =
      .next ⟨rest, status, r, false, emptyBatch, i.found + found, true, h'⟩ := by
  have hne : i.input ≠ [] := by simp [hinput, r.encode_ne_nil]
  rw [iterateTurn, if_neg (by simp [hstatus, hne, BatchStatus.isOk])]
  simp only [hc, hstatus, hinput, readRecord_encode hr, hd, BatchStatus.isTryAgain]
  simp

theorem iterateTurn_again {it : Iteration σ} {msg : String} (hstatus : it.status = .tryAgain msg)
    (hlast : it.lastWasTryAgain = false) {h : σ} (hc : H.continues it.handler = (true, h))
    {status : BatchStatus} {emptyBatch : Bool} {found : ℕ} {h' : σ}
    (hd : H.dispatch it.record it.emptyBatch h = (status, emptyBatch, found, h')) :
    iterateTurn H it =
      .next ⟨it.input, status, it.record, true, emptyBatch, it.found + found, true, h'⟩ := by
  rw [iterateTurn, if_neg (by simp [hstatus, BatchStatus.isTryAgain])]
  simp only [hc, hstatus, hlast, hd, BatchStatus.isTryAgain]
  simp

theorem iterateTurn_break {it : Iteration σ} {h : σ}
    (hgo : (it.status.isOk = true ∧ it.input ≠ []) ∨ it.status.isTryAgain = true)
    (hc : H.continues it.handler = (false, h)) :
    iterateTurn H it = .left { it with handlerContinue := false, handler := h } := by
  rw [iterateTurn, if_neg (not_not.mpr hgo)]
  simp [hc]

theorem iterateLoop_left {it it' : Iteration σ} (h : iterateTurn H it = .left it') (fuel : ℕ) :
    iterateLoop H (fuel + 1) it = .ok (.ok it') := by
  rw [iterateLoop, h]

theorem iterateLoop_next {it it' : Iteration σ} (h : iterateTurn H it = .next it') (fuel : ℕ) :
    iterateLoop H (fuel + 1) it = iterateLoop H fuel it' := by
  rw [iterateLoop, h]

theorem BatchStatus.eq_ok {s : BatchStatus} (h : s.isOk = true) : s = .ok := by
  cases s <;> simp_all [isOk]

theorem BatchStatus.exists_eq_tryAgain {s : BatchStatus} (h : s.isTryAgain = true) :
    ∃ msg, s = .tryAgain msg := by
  cases s <;> simp_all [isTryAgain]

/-- The turn in which a record is tried again. -/
theorem iterateLoop_handOutAgain (b : WriteBatch) {it : Iteration σ}
    (hagain : it.status.isTryAgain = true) (hlast : it.lastWasTryAgain = false) (fuel : ℕ) :
    (iterateLoop H (fuel + 2) it).map b.iterateResult =
      (handOutAgain H it.record it.emptyBatch it.handler it.status).elim .ok fun next =>
        (iterateLoop H (fuel + 1) ⟨it.input, .ok, it.record, true, next.1,
          it.found + (if it.record.counts then 1 else 0), true, next.2⟩).map b.iterateResult := by
  obtain ⟨msg, hmsg⟩ := BatchStatus.exists_eq_tryAgain hagain
  obtain ⟨c, h, hc⟩ : ∃ c h, H.continues it.handler = (c, h) := ⟨_, _, rfl⟩
  cases c with
  | false =>
      rw [iterateLoop_left (iterateTurn_break (Or.inr hagain) hc)]
      simp [handOutAgain, hc, hmsg, Except.map, WriteBatch.iterateResult, BatchStatus.isOk]
  | true =>
      obtain ⟨⟨s, e, n, h'⟩, hd⟩ : ∃ d, H.dispatch it.record it.emptyBatch h = d := ⟨_, rfl⟩
      have hn := Handler.dispatch_found (H := H) it.record it.emptyBatch h
      rw [hd] at hn
      rw [iterateLoop_next (iterateTurn_again hmsg hlast hc hd)]
      by_cases hs : s.isOk = true
      · obtain rfl := BatchStatus.eq_ok hs
        simp only [handOutAgain, hc, hd, hs, not_true, if_false, if_true, Sum.elim_inr]
        simp only [hs, true_and] at hn
        rw [hn]
      · by_cases ha : s.isTryAgain = true
        · obtain ⟨msg', rfl⟩ := BatchStatus.exists_eq_tryAgain ha
          obtain ⟨c', h'', hc'⟩ : ∃ c h, H.continues h' = (c, h) := ⟨_, _, rfl⟩
          cases c' with
          | false =>
              rw [iterateLoop_left (iterateTurn_break (Or.inr rfl) hc')]
              simp [handOutAgain, hc, hd, hc', Except.map, WriteBatch.iterateResult,
                BatchStatus.isOk, BatchStatus.isTryAgain]
          | true =>
              rw [iterateLoop, iterateTurn, if_neg (by simp [BatchStatus.isTryAgain])]
              simp [handOutAgain, hc, hd, hc', Except.map, WriteBatch.iterateResult,
                BatchStatus.isOk, BatchStatus.isTryAgain, twoTryAgains]
        · rw [iterateLoop_left (iterateTurn_exit (by simpa using hs) (by simpa using ha))]
          simp [handOutAgain, hc, hd, hs, ha, Except.map, WriteBatch.iterateResult]

/-- The turns that one record takes. -/
theorem iterateLoop_handOut (b : WriteBatch) {r : BatchRecord} (hr : r.Short) (rest : Bytes)
    (fuel : ℕ) (r₀ : BatchRecord) (again emptyBatch : Bool) (found : ℕ) (h : σ) :
    ∃ n last, fuel + 1 ≤ n ∧
      (iterateLoop H (fuel + 3)
        ⟨r.encode ++ rest, .ok, r₀, again, emptyBatch, found, true, h⟩).map b.iterateResult =
      (handOut H r emptyBatch h).elim .ok fun next =>
        (iterateLoop H n ⟨rest, .ok, r, last, next.1,
          found + (if r.counts then 1 else 0), true, next.2⟩).map b.iterateResult := by
  have hgo : r.encode ++ rest ≠ [] := by simp [r.encode_ne_nil]
  obtain ⟨c, h₁, hc⟩ : ∃ c h₁, H.continues h = (c, h₁) := ⟨_, _, rfl⟩
  cases c with
  | false =>
      refine ⟨fuel + 1, false, Nat.le_refl _, ?_⟩
      rw [iterateLoop_left (iterateTurn_break (Or.inl ⟨rfl, hgo⟩) hc)]
      simp [handOut, hc, Except.map, WriteBatch.iterateResult, BatchStatus.isOk]
  | true =>
      obtain ⟨⟨s, e, n, h₂⟩, hd⟩ : ∃ d, H.dispatch r emptyBatch h₁ = d := ⟨_, rfl⟩
      have hn := Handler.dispatch_found (H := H) r emptyBatch h₁
      rw [hd] at hn
      rw [iterateLoop_next (iterateTurn_read hr rfl rfl hc hd)]
      by_cases hs : s.isOk = true
      · refine ⟨fuel + 2, false, Nat.le_succ _, ?_⟩
        obtain rfl := BatchStatus.eq_ok hs
        simp only [handOut, hc, hd, hs, not_true, if_false, if_true, Sum.elim_inr]
        simp only [hs, true_and] at hn
        rw [hn]
      · obtain rfl : n = 0 := by simpa [hs] using hn
        by_cases ha : s.isTryAgain = true
        · refine ⟨fuel + 1, true, Nat.le_refl _, ?_⟩
          rw [iterateLoop_handOutAgain b ha rfl]
          simp only [handOut, hc, hd, hs, ha, not_true, if_false, if_true, Bool.false_eq_true]
          rfl
        · refine ⟨fuel + 1, false, Nat.le_refl _, ?_⟩
          rw [iterateLoop_left (iterateTurn_exit (by simpa using hs) (by simpa using ha))]
          simp [handOut, hc, hd, hs, ha, Except.map, WriteBatch.iterateResult]

/-- The loop hands out the records that are left. The fuel pays for two turns a record. -/
theorem iterateLoop_visit {b : WriteBatch} (rs : List BatchRecord) (hrs : ∀ r ∈ rs, r.Short)
    (fuel : ℕ) (hfuel : 2 * rs.length + 1 ≤ fuel) (r₀ : BatchRecord) (again emptyBatch : Bool)
    (found : ℕ) (hcount : u32 (found + countOf rs) = b.count) (h : σ) :
    (iterateLoop H fuel ⟨encodeAll rs, .ok, r₀, again, emptyBatch, found, true, h⟩).map
      b.iterateResult = .ok (visit H rs emptyBatch h) := by
  induction rs generalizing fuel r₀ again emptyBatch found h with
  | nil =>
      obtain ⟨fuel, rfl⟩ : ∃ n, fuel = n + 1 := ⟨fuel - 1, by simp at hfuel; omega⟩
      have hfound : u32 found = b.count := hcount
      rw [iterateLoop_left (iterateTurn_end rfl rfl)]
      simp [WriteBatch.iterateResult, hfound, visit, BatchStatus.isOk, Except.map]
  | cons r rs ih =>
      rw [List.length_cons] at hfuel
      obtain ⟨fuel, rfl⟩ : ∃ n, fuel = n + 3 := ⟨fuel - 3, by omega⟩
      rw [encodeAll_cons, visit]
      obtain ⟨n, last, hn, hturns⟩ := iterateLoop_handOut b (hrs r List.mem_cons_self)
        (encodeAll rs) fuel r₀ again emptyBatch found h
      rw [hturns]
      cases hout : handOut H r emptyBatch h with
      | inl result => rfl
      | inr next =>
          rw [countOf_cons, ← Nat.add_assoc] at hcount
          exact ih (fun t ht => hrs t (List.mem_cons_of_mem _ ht)) n (by omega) r last next.1 _
            hcount next.2

end Visiting

end Tweezer
