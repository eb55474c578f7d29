import Tweezer.MemTableVersions

/-!
# What `Get` gives, and when it is the plaintext

The callback over the visible records, entry by entry. A value that no operand waits for is
decrypted. As a base of a merge, or in a list of operands, its record is used as it is, and
merge operands are kept only where values can be updated in place.
-/

namespace Tweezer

section Plain

variable (op : AssociativeMergeOperator) (doMerge : Bool) (key : Bytes)

/-- The operands merged over a base. -/
def mergeOver (base : Option Bytes) (operands : List Bytes) (seq : ℕ) :
    MemTable.GetResult :=
  match op.fullMergeV2 key base operands with
  | some v => ⟨true, .ok, v, seq, operands⟩
  | none => ⟨true, .corruption, none, seq, operands⟩

/-- `Get` on the plaintext of the visible versions, newest first. The operands are those of
the merges so far, oldest first, and `seq` belongs to the last of them. -/
def plainGet : List Bytes → ℕ → List MemTableAdd → MemTable.GetResult
  | [], seq, [] => ⟨false, .ok, none, seq, []⟩
  | operands, seq, [] => ⟨false, .mergeInProgress, none, seq, operands⟩
  | operands, _, a :: older =>
      match a.type with
      | .merge => plainGet (a.value :: operands) a.seq.val older
      | .value =>
          if doMerge then mergeOver op key (some a.value) operands a.seq.val
          else ⟨true, .ok, none, a.seq.val, a.value :: operands⟩
      | _ =>
          if operands = [] then ⟨true, .notFound, none, a.seq.val, []⟩
          else if doMerge then mergeOver op key none operands a.seq.val
          else ⟨true, .ok, none, a.seq.val, operands⟩

/-- When the records stand for the plaintext: operands are kept only with in-place updates,
a base of a merge must give the same as its record, and without merging it must be equal to
its record. Each version comes with its record. -/
def GetFollows (inplaceUpdateSupport : Bool) : List Bytes → List (MemTableAdd × Bytes) → Prop
  | operands, [] => inplaceUpdateSupport = true ∨ operands = []
  | operands, (a, record) :: older =>
      match a.type with
      | .merge => GetFollows inplaceUpdateSupport (a.value :: operands) older
      | .value => (inplaceUpdateSupport = true ∨ operands = []) ∧
          if doMerge then operands = [] ∨
            op.fullMergeV2 key (some record) operands = op.fullMergeV2 key (some a.value) operands
          else record = a.value
      | _ => inplaceUpdateSupport = true ∨ operands = []

end Plain

/-- An entry as `SaveValue` takes it when a range deletion of sequence number `cover` covers its
key. -/
def MemTableEntry.under (a : MemTableAdd) (cover : ℕ) : MemTableAdd :=
  if a.seq.val < cover then { a with type := .deletion, type_mem := by decide } else a

/-- `P` holds of the versions that `Get` decrypts: the operands in front of the base, and a base
that no operand waits for. -/
def DecryptsOnly {α : Type} (type : α → ValueType) (doMerge : Bool) (P : α → Prop) :
    Bool → List α → Prop
  | _, [] => True
  | first, c :: older =>
      match type c with
      | .merge => P c ∧ DecryptsOnly type doMerge P false older
      | .value => first = true → doMerge = true → P c
      | _ => True

theorem DecryptsOnly.imp {α : Type} {type : α → ValueType} {doMerge : Bool} {P Q : α → Prop}
    {first : Bool} {l : List α} (himp : ∀ c ∈ l, P c → Q c)
    (h : DecryptsOnly type doMerge P first l) : DecryptsOnly type doMerge Q first l := by
  induction l generalizing first with
  | nil => trivial
  | cons c l ih =>
      rw [DecryptsOnly] at h ⊢
      have hc := himp c List.mem_cons_self
      cases ht : type c with
      | merge =>
          simp only [ht] at h ⊢
          exact ⟨hc h.1, ih (fun d hd => himp d (List.mem_cons_of_mem _ hd)) h.2⟩
      | value =>
          simp only [ht] at h ⊢
          exact fun hfirst hmerge => hc (h hfirst hmerge)
      | _ => trivial

theorem decryptsOnly_of_forall {α : Type} {type : α → ValueType} {doMerge : Bool} {P : α → Prop}
    {l : List α} (h : ∀ c ∈ l, P c) (first : Bool) : DecryptsOnly type doMerge P first l := by
  induction l generalizing first with
  | nil => trivial
  | cons c l ih =>
      rw [DecryptsOnly]
      have hc := h c List.mem_cons_self
      cases ht : type c with
      | merge => exact ⟨hc, ih (fun d hd => h d (List.mem_cons_of_mem _ hd)) false⟩
      | value => exact fun _ _ => hc
      | _ => trivial

theorem decryptsOnly_map {α β : Type} {type : β → ValueType} {doMerge : Bool} {P : β → Prop}
    {f : α → β} {first : Bool} {l : List α} :
    DecryptsOnly type doMerge P first (l.map f) ↔
      DecryptsOnly (fun c => type (f c)) doMerge (fun c => P (f c)) first l := by
  induction l generalizing first with
  | nil => rfl
  | cons c l ih =>
      rw [List.map_cons, DecryptsOnly, DecryptsOnly]
      cases ht : type (f c) with
      | merge => simp only [ih]
      | _ => rfl

/-- How a merge operand is kept. -/
def keepOperand (inplaceUpdateSupport : Bool) (v : Bytes) : Operand :=
  if inplaceUpdateSupport then .copied v else .dangling

/-- The saver after some merge operands. -/
def collected (op : AssociativeMergeOperator) (inplaceUpdateSupport doMerge : Bool) (key : Bytes)
    (cover : ℕ) (operands : List Bytes) (seq : ℕ) : Saver :=
  { MemTable.newSaver (some op) inplaceUpdateSupport doMerge key with
    mergeInProgress := !operands.isEmpty
    operands := (operands.map (keepOperand inplaceUpdateSupport)).reverse
    seq := seq
    maxCoveringTombstoneSeq := cover }

section Under

variable (a : MemTableAdd) (cover : ℕ)

@[simp] theorem under_key : (a.under cover).key = a.key := by
  unfold MemTableEntry.under
  split_ifs <;> rfl

@[simp] theorem under_seq : (a.under cover).seq = a.seq := by
  unfold MemTableEntry.under
  split_ifs <;> rfl

@[simp] theorem under_value : (a.under cover).value = a.value := by
  unfold MemTableEntry.under
  split_ifs <;> rfl

@[simp] theorem under_zero : a.under 0 = a := if_neg (Nat.not_lt_zero _)

@[simp] theorem valueRecordOf_under (E : MemTableEnv) (ptr : ℕ) :
    valueRecordOf E (a.under cover) ptr = valueRecordOf E a ptr := by
  rw [valueRecordOf, valueRecordOf, under_value]

end Under

section Callback

variable {E : MemTableEnv} {memory : Memory} {s : Saver} {a : MemTableAdd} {ptr : ℕ}

theorem saveValue_other (h : E.ucmp.compare a.key s.userKey ≠ .eq) :
    MemTable.saveValue E memory s (recordOf E a ptr) = .ok (s, false) := by
  have hlen := length_internalKey a
  rw [MemTable.saveValue, getLengthPrefixedSlice_recordOf, Outcome.ok_bind]
  dsimp only
  rw [if_neg (by rw [hlen, kNumInternalBytes]; omega), extractUserKey_internalKey, if_neg h]

theorem type_cases (a : MemTableAdd) : a.type = .value ∨ a.type = .merge ∨ a.type = .deletion ∨
    a.type = .singleDeletion := by
  have h := a.type_mem
  simpa [pointTypes] using h

/-- At a record of the key, the callback goes by its type, a covered one being a deletion. -/
theorem saveValue_same (h : E.ucmp.compare a.key s.userKey = .eq) :
    MemTable.saveValue E memory s (recordOf E a ptr) =
      let s := { s with seq := a.seq.val }
      match (a.under s.maxCoveringTombstoneSeq).type with
      | .merge => s.saveMerge E memory (valueRecordOf E a ptr)
      | .value => s.saveBase E memory (valueRecordOf E a ptr)
      | _ => s.saveDeletion := by
  have hlen := length_internalKey a
  have hcode := a.type.code_lt
  have hseq : extractInternalKeyFooter a.internalKey / 256 = a.seq.val := by
    rw [footer_internalKey]
    omega
  have htype : ValueType.ofCode? (extractValueType a.internalKey) = some a.type := by
    rw [extractValueType, footer_internalKey, Nat.mul_comm, Nat.mul_add_mod,
      Nat.mod_eq_of_lt hcode, ValueType.ofCode?_code]
  have hvalue := getLengthPrefixedSlice_valueRecordOf E a ptr
  rw [MemTable.saveValue, getLengthPrefixedSlice_recordOf, Outcome.ok_bind]
  dsimp only
  rw [if_neg (by rw [hlen, kNumInternalBytes]; omega), extractUserKey_internalKey, if_pos h, hseq,
    htype, MemTableEntry.under]
  by_cases hcover : a.seq.val < s.maxCoveringTombstoneSeq
  · rcases type_cases a with ht | ht | ht | ht
    all_goals simp only [ht, hcover, if_true]
  · rcases type_cases a with ht | ht | ht | ht
    all_goals simp only [ht, hcover, hvalue, Outcome.ok_bind, if_false]

variable {op : AssociativeMergeOperator} {inplace doMerge : Bool} {key : Bytes}
  {operands : List Bytes} {seq cover : ℕ}

/-- The operands can be read exactly if they were copied, or there are none. -/
theorem mapM_keepOperand (operands : List Bytes) :
    (operands.map (keepOperand inplace)).mapM Operand.read =
      if inplace = true ∨ operands = [] then .ok operands else .error .outOfBuffer := by
  cases inplace with
  | true =>
      rw [if_pos (Or.inl rfl)]
      induction operands with
      | nil => rfl
      | cons v operands ih =>
          rw [List.map_cons, List.mapM_cons, ih]
          rfl
  | false =>
      cases operands with
      | nil => rfl
      | cons v operands => rfl

theorem readOperands_kept (operands : List Bytes) :
    readOperands (operands.map (keepOperand inplace)).reverse =
      if inplace = true ∨ operands = [] then .ok operands else .error .outOfBuffer := by
  rw [readOperands, List.reverse_reverse, mapM_keepOperand]

theorem readOperands_kept_append (operands : List Bytes) {x : Operand} {v : Bytes}
    (hx : x.read = .ok v) :
    readOperands ((operands.map (keepOperand inplace)).reverse ++ [x]) =
      if inplace = true ∨ operands = [] then .ok (v :: operands) else .error .outOfBuffer := by
  rw [readOperands, List.reverse_append, List.reverse_reverse, List.reverse_singleton,
    List.singleton_append, List.mapM_cons, hx, mapM_keepOperand]
  split_ifs <;> rfl

theorem getResult_collected (operands : List Bytes) (seq : ℕ) :
    MemTable.getResult (collected op inplace doMerge key cover operands seq) =
      if inplace = true ∨ operands = [] then .ok (plainGet op doMerge key operands seq [])
      else .error .outOfBuffer := by
  have hread : readOperands (collected op inplace doMerge key cover operands seq).operands =
      if inplace = true ∨ operands = [] then .ok operands else .error .outOfBuffer :=
    readOperands_kept operands
  rw [MemTable.getResult, hread]
  by_cases hkept : inplace = true ∨ operands = []
  · rw [if_pos hkept, if_pos hkept, Outcome.ok_bind]
    cases operands <;> rfl
  · rw [if_neg hkept, if_neg hkept, Outcome.error_bind]

/-- Another merge operand. -/
theorem saveMerge_collected (hptr : ptr < 2 ^ 64) (hsize : a.value.length ≤ kUntrustedBlockSize)
    (hreads : memory.read ptr a.value.length = E.cipher.enc E.memtableKey a.value) :
    (collected op inplace doMerge key cover operands seq).saveMerge E memory (valueRecordOf E a ptr) =
      .ok (collected op inplace doMerge key cover (a.value :: operands) seq, true) := by
  have hop : (collected op inplace doMerge key cover operands seq).mergeOperator = some op := rfl
  simp only [Saver.saveMerge, hop, readUntrusted_valueRecordOf hptr hsize, Outcome.ok_bind, hreads,
    decryption, E.cipher.dec_enc, AssociativeMergeOperator.shouldMerge, Bool.and_false,
    Bool.false_eq_true, if_false]
  cases inplace <;> simp [Saver.pushLocal, collected, keepOperand, MemTable.newSaver]

/-- A merge over a base, and what the caller then sees. -/
theorem getResult_fullMerge (base : Option Bytes) (hne : operands ≠ []) :
    ((collected op inplace doMerge key cover operands seq).fullMerge base >>=
        fun s => MemTable.getResult { s with foundFinalValue := true }) =
      if inplace = true then .ok (mergeOver op key base operands seq)
      else .error .outOfBuffer := by
  have hread : readOperands (operands.map (keepOperand inplace)).reverse =
      if inplace = true then .ok operands else .error .outOfBuffer := by
    rw [readOperands_kept]
    simp [hne]
  have hop : (collected op inplace doMerge key cover operands seq).mergeOperator = some op := rfl
  have hops : (collected op inplace doMerge key cover operands seq).operands =
    (operands.map (keepOperand inplace)).reverse := rfl
  have hkey : (collected op inplace doMerge key cover operands seq).userKey = key := rfl
  simp only [Saver.fullMerge, hop, hops, hkey, hread]
  by_cases hi : inplace = true
  · rw [if_pos hi] at hread
    rw [if_pos hi, if_pos hi, Outcome.ok_bind, mergeOver]
    cases op.fullMergeV2 key base operands with
    | none => simp [MemTable.getResult, collected, MemTable.newSaver, hread]
    | some v => simp [MemTable.getResult, collected, MemTable.newSaver, hread]
  · rw [if_neg hi, if_neg hi, Outcome.error_bind, Outcome.error_bind]

theorem mergeOver_inj {base base' : Option Bytes} :
    mergeOver op key base operands seq = mergeOver op key base' operands seq ↔
      op.fullMergeV2 key base operands = op.fullMergeV2 key base' operands := by
  rw [mergeOver, mergeOver]
  cases op.fullMergeV2 key base operands <;> cases op.fullMergeV2 key base' operands <;> simp

/-- What the callback leaves at a base value, and when it is the plaintext. -/
theorem getResult_saveBase (hptr : ptr < 2 ^ 64) (hsize : a.value.length ≤ kUntrustedBlockSize)
    (hreads : operands.isEmpty = true → doMerge = true →
      memory.read ptr a.value.length = E.cipher.enc E.memtableKey a.value)
    (ht : a.type = .value) (older : List MemTableAdd)
    (older' : List (MemTableAdd × Bytes)) :
    ((collected op inplace doMerge key cover operands a.seq.val).baseValue E memory
        (valueRecordOf E a ptr) >>=
          fun s => MemTable.getResult { s with foundFinalValue := true }) =
        .ok (plainGet op doMerge key operands seq (a :: older)) ↔
      GetFollows op doMerge key inplace operands ((a, valueRecordOf E a ptr) :: older') := by
  have hplain : plainGet op doMerge key operands seq (a :: older) =
      if doMerge then mergeOver op key (some a.value) operands a.seq.val
      else ⟨true, .ok, none, a.seq.val, a.value :: operands⟩ := by
    cases operands <;> simp only [plainGet, ht]
  rw [hplain, GetFollows, ht]
  dsimp only
  cases doMerge with
  | false =>
      have hpush : (collected op inplace false key cover operands a.seq.val).baseValue E memory
          (valueRecordOf E a ptr) = .ok ((collected op inplace false key cover operands
            a.seq.val).pushOperand (valueRecordOf E a ptr)) := by
        cases operands <;> rfl
      have hread : readOperands ((collected op inplace false key cover operands
          a.seq.val).pushOperand (valueRecordOf E a ptr)).operands =
          if inplace = true ∨ operands = [] then .ok (valueRecordOf E a ptr :: operands)
          else .error .outOfBuffer :=
        readOperands_kept_append operands (by cases inplace <;> rfl)
      rw [hpush, Outcome.ok_bind, MemTable.getResult]
      dsimp only
      rw [hread]
      by_cases hkept : inplace = true ∨ operands = []
      · rw [if_pos hkept, Outcome.ok_bind]
        simp [hkept, Saver.pushOperand, collected, MemTable.newSaver]
      · rw [if_neg hkept, Outcome.error_bind]
        simp [hkept]
  | true =>
      by_cases hnil : operands = []
      · subst hnil
        have hvalue : (collected op inplace true key cover [] a.seq.val).baseValue E memory
            (valueRecordOf E a ptr) =
            .ok { collected op inplace true key cover [] a.seq.val with value := some a.value } := by
          simp [Saver.baseValue, collected, MemTable.newSaver,
            readUntrusted_valueRecordOf hptr hsize, hreads rfl rfl, decryption]
        rw [hvalue, Outcome.ok_bind]
        simp [MemTable.getResult, collected, MemTable.newSaver, mergeOver, readOperands,
          AssociativeMergeOperator.fullMergeV2]
      · have hmerge : (collected op inplace true key cover operands a.seq.val).baseValue E memory
            (valueRecordOf E a ptr) = (collected op inplace true key cover operands
              a.seq.val).fullMerge (some (valueRecordOf E a ptr)) := by
          cases operands with
          | nil => exact absurd rfl hnil
          | cons v operands => rfl
        rw [hmerge, getResult_fullMerge _ hnil]
        by_cases hi : inplace = true
        · simp [hi, hnil, mergeOver_inj]
        · simp [hi, hnil]

theorem getResult_saveDeletion (ht : a.type = .deletion ∨ a.type = .singleDeletion)
    (older : List MemTableAdd) (record : Bytes) (older' : List (MemTableAdd × Bytes)) :
    ((collected op inplace doMerge key cover operands a.seq.val).deletionValue >>=
          fun s => MemTable.getResult { s with foundFinalValue := true }) =
        .ok (plainGet op doMerge key operands seq (a :: older)) ↔
      GetFollows op doMerge key inplace operands ((a, record) :: older') := by
  have hplain : plainGet op doMerge key operands seq (a :: older) =
      if operands = [] then ⟨true, .notFound, none, a.seq.val, []⟩
      else if doMerge then mergeOver op key none operands a.seq.val
      else ⟨true, .ok, none, a.seq.val, operands⟩ := by
    rcases ht with ht | ht <;> cases operands <;> simp only [plainGet, ht]
  have hfollows : GetFollows op doMerge key inplace operands ((a, record) :: older') ↔
      inplace = true ∨ operands = [] := by
    rcases ht with ht | ht <;> simp only [GetFollows, ht]
  rw [hplain, hfollows]
  by_cases hnil : operands = []
  · subst hnil
    simp [Saver.deletionValue, collected, MemTable.newSaver, MemTable.getResult, readOperands]
  · have hmerging : (collected op inplace doMerge key cover operands a.seq.val).mergeInProgress =
        true := by
      cases operands with
      | nil => exact absurd rfl hnil
      | cons v operands => rfl
    cases doMerge with
    | true =>
        have hmerge : (collected op inplace true key cover operands a.seq.val).deletionValue =
            (collected op inplace true key cover operands a.seq.val).fullMerge none := by
          rw [Saver.deletionValue, if_pos hmerging]
          rfl
        rw [hmerge, getResult_fullMerge _ hnil]
        by_cases hi : inplace = true
        · simp [hi, hnil]
        · simp [hi, hnil]
    | false =>
        have hkeep : (collected op inplace false key cover operands a.seq.val).deletionValue =
            .ok (collected op inplace false key cover operands a.seq.val) := by
          rw [Saver.deletionValue, if_pos hmerging]
          rfl
        have hread : readOperands (collected op inplace false key cover operands a.seq.val).operands =
            if inplace = true ∨ operands = [] then .ok operands else .error .outOfBuffer :=
          readOperands_kept operands
        rw [hkeep, Outcome.ok_bind, MemTable.getResult]
        dsimp only
        rw [hread]
        by_cases hkept : inplace = true ∨ operands = []
        · rw [if_pos hkept, Outcome.ok_bind]
          simpa [hnil, collected, MemTable.newSaver] using hkept
        · rw [if_neg hkept, Outcome.error_bind]
          simp [hkept]

/-- At a record that ends the search, the rest of the loop and of `Get`. -/
theorem getLoop_stop {x : Outcome Saver} {entries : List Bytes}
    (h : MemTable.saveValue E memory s (recordOf E a ptr) =
      x >>= fun s => .ok ({ s with foundFinalValue := true }, false)) :
    (MemTable.getLoop E memory s (recordOf E a ptr :: entries) >>= MemTable.getResult) =
      x >>= fun s => MemTable.getResult { s with foundFinalValue := true } := by
  rw [MemTable.getLoop, h]
  cases x with
  | error e => rfl
  | ok s => rfl

theorem getLoop_other (rest : List (MemTableAdd × ℕ))
    (h : ∀ c ∈ rest.head?, E.ucmp.compare c.1.key s.userKey ≠ .eq) :
    MemTable.getLoop E memory s (rest.map fun c => recordOf E c.1 c.2) = .ok s := by
  cases rest with
  | nil => rfl
  | cons c rest =>
      rw [List.map_cons, MemTable.getLoop, saveValue_other (h c rfl), Outcome.ok_bind]
      rfl

theorem saveValue_value (h : E.ucmp.compare a.key key = .eq)
    (ht : (a.under cover).type = .value) :
    MemTable.saveValue E memory (collected op inplace doMerge key cover operands seq)
        (recordOf E a ptr) =
      (collected op inplace doMerge key cover operands (a.under cover).seq.val).baseValue E memory
        (valueRecordOf E (a.under cover) ptr) >>=
          fun s => .ok ({ s with foundFinalValue := true }, false) := by
  have hcover : (collected op inplace doMerge key cover operands seq).maxCoveringTombstoneSeq =
    cover := rfl
  rw [saveValue_same (s := collected op inplace doMerge key cover operands seq) h]
  simp only [hcover, ht, under_seq, valueRecordOf_under]
  rfl

theorem saveValue_merge (h : E.ucmp.compare a.key key = .eq)
    (ht : (a.under cover).type = .merge) :
    MemTable.saveValue E memory (collected op inplace doMerge key cover operands seq)
        (recordOf E a ptr) =
      (collected op inplace doMerge key cover operands (a.under cover).seq.val).saveMerge E memory
        (valueRecordOf E (a.under cover) ptr) := by
  have hcover : (collected op inplace doMerge key cover operands seq).maxCoveringTombstoneSeq =
    cover := rfl
  rw [saveValue_same (s := collected op inplace doMerge key cover operands seq) h]
  simp only [hcover, ht, under_seq, valueRecordOf_under]
  rfl

theorem saveValue_deletion (h : E.ucmp.compare a.key key = .eq)
    (ht : (a.under cover).type = .deletion ∨ (a.under cover).type = .singleDeletion) :
    MemTable.saveValue E memory (collected op inplace doMerge key cover operands seq)
        (recordOf E a ptr) =
      (collected op inplace doMerge key cover operands (a.under cover).seq.val).deletionValue >>=
        fun s => .ok ({ s with foundFinalValue := true }, false) := by
  have hcover : (collected op inplace doMerge key cover operands seq).maxCoveringTombstoneSeq =
    cover := rfl
  rw [saveValue_same (s := collected op inplace doMerge key cover operands seq) h]
  rcases ht with ht | ht
  · simp only [hcover, ht, under_seq]
    rfl
  · simp only [hcover, ht, under_seq]
    rfl

/-- The loop over the visible records, by induction on them: it gives what the plaintext
gives exactly if their records stand for the plaintext. -/
theorem getLoop_iff (visible rest : List (MemTableAdd × ℕ)) (operands : List Bytes) (seq : ℕ)
    (hkey : ∀ c ∈ visible, E.ucmp.compare c.1.key key = .eq)
    (hrest : ∀ c ∈ rest.head?, E.ucmp.compare c.1.key key ≠ .eq)
    (hptr : ∀ c ∈ visible, c.2 < 2 ^ 64)
    (hsize : ∀ c ∈ visible, c.1.value.length ≤ kUntrustedBlockSize)
    (hreads : DecryptsOnly (fun c => (c.1.under cover).type) doMerge (fun c =>
      memory.read c.2 c.1.value.length = E.cipher.enc E.memtableKey c.1.value)
      operands.isEmpty visible) :
    (MemTable.getLoop E memory (collected op inplace doMerge key cover operands seq)
        ((visible ++ rest).map fun c => recordOf E c.1 c.2) >>= MemTable.getResult) =
        .ok (plainGet op doMerge key operands seq (visible.map fun c => c.1.under cover)) ↔
      GetFollows op doMerge key inplace operands
        (visible.map fun c => (c.1.under cover, valueRecordOf E c.1 c.2)) := by
  induction visible generalizing operands seq with
  | nil =>
      rw [List.nil_append, getLoop_other rest hrest, Outcome.ok_bind, getResult_collected,
        List.map_nil, List.map_nil, GetFollows]
      by_cases hkept : inplace = true ∨ operands = []
      · simp [hkept]
      · simp [hkept]
  | cons c visible ih =>
      obtain ⟨a, ptr⟩ := c
      have hk := hkey (a, ptr) List.mem_cons_self
      have hp := hptr (a, ptr) List.mem_cons_self
      have hsz := hsize (a, ptr) List.mem_cons_self
      rw [List.cons_append, List.map_cons, List.map_cons, List.map_cons]
      dsimp only
      rw [DecryptsOnly] at hreads
      rcases type_cases (a.under cover) with ht | ht | ht | ht
      · have hrd : operands.isEmpty = true → doMerge = true →
            memory.read ptr (a.under cover).value.length =
              E.cipher.enc E.memtableKey (a.under cover).value := by
          simpa only [ht, under_value] using hreads
        rw [getLoop_stop (saveValue_value hk ht), ← valueRecordOf_under a cover]
        exact getResult_saveBase hp (by rwa [under_value]) hrd ht _ _
      · obtain ⟨hrd, hreads'⟩ : memory.read ptr a.value.length =
            E.cipher.enc E.memtableKey a.value ∧
            DecryptsOnly (fun c => (c.1.under cover).type) doMerge (fun c =>
              memory.read c.2 c.1.value.length = E.cipher.enc E.memtableKey c.1.value)
              false visible := by
          simpa only [ht] using hreads
        rw [MemTable.getLoop, saveValue_merge hk ht, under_seq, valueRecordOf_under,
          saveMerge_collected hp hsz hrd, Outcome.ok_bind]
        have hfollows : GetFollows op doMerge key inplace operands
            ((a.under cover, valueRecordOf E a ptr) ::
              visible.map fun c => (c.1.under cover, valueRecordOf E c.1 c.2)) ↔
            GetFollows op doMerge key inplace (a.value :: operands)
              (visible.map fun c => (c.1.under cover, valueRecordOf E c.1 c.2)) := by
          simp only [GetFollows, ht, under_value]
        have hplain : plainGet op doMerge key operands seq
              (a.under cover :: visible.map fun c => c.1.under cover) =
            plainGet op doMerge key (a.value :: operands) a.seq.val
              (visible.map fun c => c.1.under cover) := by
          cases operands <;> simp only [plainGet, ht, under_value, under_seq]
        rw [hplain, hfollows]
        exact ih _ _ (fun c hc => hkey c (List.mem_cons_of_mem _ hc))
          (fun c hc => hptr c (List.mem_cons_of_mem _ hc))
          (fun c hc => hsize c (List.mem_cons_of_mem _ hc)) hreads'
      · rw [getLoop_stop (saveValue_deletion hk (Or.inl ht))]
        exact getResult_saveDeletion (Or.inl ht) _ _ _
      · rw [getLoop_stop (saveValue_deletion hk (Or.inr ht))]
        exact getResult_saveDeletion (Or.inr ht) _ _ _

end Callback

/-- The 28 bytes that the memtable keeps for each visible version, newest first. -/
def MemTable.visibleRecords (u : Comparator) (m : MemTable) (q : MemTableLookup) : List Bytes :=
  m.table.filterMap fun r =>
    match getLengthPrefixedSlice r with
    | .error _ => none
    | .ok (key, rest) =>
        if u.compare (extractUserKey key) q.key = .eq ∧
            extractInternalKeyFooter key / 256 ≤ q.snapshot then
          match getLengthPrefixedSlice rest with
          | .error _ => none
          | .ok (v, _) => some v
        else none

section Get

variable {E : MemTableEnv} {m : MemTable} {adds : List MemTableAdd}
  {cells : List (MemTableAdd × ℕ)} {regions : List (ℕ × ℕ)} {op : AssociativeMergeOperator}
  {inplace doMerge : Bool} {q : MemTableLookup}

theorem visibleRecords_eq (h : TableKeeps E m.table adds cells regions) :
    m.visibleRecords E.ucmp q =
      (cells.filter fun c => Visible E.ucmp q c.1).map fun c => valueRecordOf E c.1 c.2 := by
  rw [MemTable.visibleRecords, h.table_eq, List.filterMap_map, ← List.filterMap_eq_map,
    List.filterMap_filter]
  apply List.filterMap_congr
  intro c _
  have hcode := c.1.type.code_lt
  have hseq : extractInternalKeyFooter c.1.internalKey / 256 = c.1.seq.val := by
    rw [footer_internalKey]
    omega
  simp only [Function.comp_apply, getLengthPrefixedSlice_recordOf, extractUserKey_internalKey,
    hseq, getLengthPrefixedSlice_valueRecordOf, Visible, decide_eq_true_iff]

theorem visible_versions (h : TableKeeps E m.table adds cells regions) :
    (versions E.ucmp q adds).zip (m.visibleRecords E.ucmp q) =
      (cells.filter fun c => Visible E.ucmp q c.1).map fun c => (c.1, valueRecordOf E c.1 c.2) := by
  rw [visibleRecords_eq h, ← map_filter_eq_versions Prod.fst h.perm h.sorted, List.zip_map']

/-- The loop starts at the visible versions, and other keys follow. -/
theorem seekRecords_eq (h : TableKeeps E m.table adds cells regions) (q : MemTableLookup) :
    ∃ rest : List (MemTableAdd × ℕ), (∀ c ∈ rest.head?, E.ucmp.compare c.1.key q.key ≠ .eq) ∧
      MemTable.seekRecords E.ucmp m.table (MemTable.lookupKey q.key q.snapshot) =
        ((cells.filter fun c => Visible E.ucmp q c.1) ++ rest).map fun c => recordOf E c.1 c.2 := by
  have hkey := q.length_key
  have hlen : (MemTable.lookupKey q.key q.snapshot).length = q.key.length + 8 := by
    rw [MemTable.lookupKey, List.length_append, Bytes.length_leEncode]
  have htarget := getLengthPrefixedSlice_putVarint32 (s := MemTable.lookupKey q.key q.snapshot)
    (by omega) []
  rw [List.append_nil] at htarget
  have hu : u32 (MemTable.lookupKey q.key q.snapshot).length =
      (MemTable.lookupKey q.key q.snapshot).length := u32_of_lt (by omega)
  have hpack : packSequenceAndType q.snapshot kValueTypeForSeek.code / 256 = q.snapshot := by
    have hcode := kValueTypeForSeek.code_lt
    rw [packSequenceAndType_eq q.snapshot_le hcode]
    omega
  have hcmp : ∀ c : MemTableAdd × ℕ, MemTable.compareRecords E.ucmp (recordOf E c.1 c.2)
      (putVarint32 (u32 (MemTable.lookupKey q.key q.snapshot).length) ++
        MemTable.lookupKey q.key q.snapshot) =
      compareVersions E.ucmp c.1.version (q.key, q.snapshot) := by
    intro c
    have hcode := c.1.type.code_lt
    have hseq : extractInternalKeyFooter c.1.internalKey / 256 = c.1.seq.val := by
      rw [footer_internalKey]
      omega
    rw [MemTable.compareRecords, hu]
    dsimp only
    rw [getLengthPrefixedSlice_recordOf, htarget]
    dsimp only
    rw [compareKeySeq, extractUserKey_internalKey, hseq, MemTable.lookupKey,
      extractUserKey_append, extractInternalKeyFooter_append _ (packSequenceAndType_lt _ _), hpack]
    rfl
  obtain ⟨l, hl⟩ : ∃ l, l = cells.dropWhile fun c =>
    decide (compareVersions E.ucmp c.1.version (q.key, q.snapshot) = .lt) := ⟨_, rfl⟩
  obtain ⟨p, hp⟩ : ∃ p : MemTableAdd × ℕ → Bool, p = fun c =>
    decide (E.ucmp.compare c.1.key q.key = .eq) := ⟨_, rfl⟩
  have htake : l.takeWhile p = cells.filter fun c => Visible E.ucmp q c.1 := by
    rw [hl, hp]
    exact takeWhile_dropWhile_eq_filter Prod.fst h.sorted
  refine ⟨l.dropWhile p, ?_, ?_⟩
  · intro c hc
    have hnot := List.head?_dropWhile_not p l
    rw [Option.mem_def.mp hc] at hnot
    dsimp only at hnot
    rwa [hp, decide_eq_false_iff_not] at hnot
  · rw [← htake, List.takeWhile_append_dropWhile, MemTable.seekRecords, h.table_eq,
      List.dropWhile_map, hl]
    simp only [Function.comp_def, hcmp]

/-- The record of a version leads to its ciphertext and tag. -/
def Intact (E : MemTableEnv) (memory : Memory) (c : MemTableAdd × Bytes) : Prop :=
  MemTable.readUntrusted memory c.2 = .ok (encryption E.cipher c.1.value E.memtableKey)

/-- The loop of `Get` under a range deletion gives what the plaintext gives exactly if the
records of the visible versions stand for it, as long as what it decrypts is intact. -/
theorem TableKeeps.getLoop_iff (h : TableKeeps E m.table adds cells regions)
    (op : AssociativeMergeOperator) (inplace : Bool) (cover : ℕ)
    (hintact : DecryptsOnly (fun c => (c.1.under cover).type) doMerge (Intact E m.memory) true
      ((versions E.ucmp q adds).zip (m.visibleRecords E.ucmp q))) :
    (MemTable.getLoop E m.memory
        (collected op inplace doMerge q.key cover [] kMaxSequenceNumber)
        (MemTable.seekRecords E.ucmp m.table (MemTable.lookupKey q.key q.snapshot)) >>=
          MemTable.getResult) =
        .ok (plainGet op doMerge q.key [] kMaxSequenceNumber
          ((versions E.ucmp q adds).map fun a => a.under cover)) ↔
      GetFollows op doMerge q.key inplace []
        (((versions E.ucmp q adds).zip (m.visibleRecords E.ucmp q)).map
          fun c => (c.1.under cover, c.2)) := by
  obtain ⟨rest, hrest, hseek⟩ := seekRecords_eq h q
  have hvisible : ∀ c ∈ cells.filter fun c => Visible E.ucmp q c.1,
      c ∈ cells ∧ E.ucmp.compare c.1.key q.key = .eq := by
    intro c hc
    obtain ⟨hmem, hv⟩ := List.mem_filter.mp hc
    exact ⟨hmem, (visible_iff.mp hv).1⟩
  have hptr := fun c hc => h.ptr_lt c (hvisible c hc).1
  have hsize := fun c hc => h.value_le c (hvisible c hc).1
  rw [visible_versions h, decryptsOnly_map] at hintact
  rw [visible_versions h, hseek, ← map_filter_eq_versions Prod.fst h.perm h.sorted, List.map_map,
    List.map_map]
  refine Tweezer.getLoop_iff _ rest [] kMaxSequenceNumber (fun c hc => (hvisible c hc).2) hrest
    hptr hsize (hintact.imp fun c hc hread => ?_)
  rw [Intact, readUntrusted_valueRecordOf (hptr c hc) (hsize c hc)] at hread
  exact congrArg Prod.fst (Except.ok.inj hread)

/-- Memory that holds what was stored is intact. -/
theorem TableKeeps.intact_of_stored (h : TableKeeps E m.table adds cells regions)
    (hstored : Stored E m.memory cells) (cover : ℕ) (doMerge : Bool) (q : MemTableLookup) :
    DecryptsOnly (fun c => (c.1.under cover).type) doMerge (Intact E m.memory) true
      ((versions E.ucmp q adds).zip (m.visibleRecords E.ucmp q)) := by
  apply decryptsOnly_of_forall
  intro c hc
  rw [visible_versions h] at hc
  obtain ⟨d, hd, rfl⟩ := List.mem_map.mp hc
  have hmem := List.mem_of_mem_filter hd
  rw [Intact, readUntrusted_valueRecordOf (h.ptr_lt d hmem) (h.value_le d hmem), hstored d hmem]
  rfl

/-- `Get` gives what the plaintext gives exactly if the records of the visible versions
stand for it. -/
theorem MemTable.Holds.get_iff (h : m.Holds E adds cells regions) :
    m.get E (some op) inplace doMerge q.key q.snapshot =
        .ok (plainGet op doMerge q.key [] kMaxSequenceNumber (versions E.ucmp q adds)) ↔
      GetFollows op doMerge q.key inplace []
        ((versions E.ucmp q adds).zip (m.visibleRecords E.ucmp q)) := by
  have hstart : MemTable.newSaver (some op) inplace doMerge q.key =
      collected op inplace doMerge q.key 0 [] kMaxSequenceNumber := rfl
  rw [MemTable.get, hstart]
  by_cases hempty : adds = []
  · subst hempty
    have hcells : cells = [] := List.map_eq_nil_iff.mp h.perm.eq_nil
    have hfirst : m.isEmpty = true := by
      rw [MemTable.isEmpty, h.isEmpty_iff.mpr rfl]
      rfl
    have hversions : versions E.ucmp q [] = [] := rfl
    rw [visible_versions h.toTableKeeps, hfirst, if_pos rfl, getResult_collected,
      if_pos (Or.inr rfl), hversions, hcells]
    exact ⟨fun _ => Or.inr rfl, fun _ => rfl⟩
  · have hfirst : ¬ m.isEmpty = true := by
      rw [MemTable.isEmpty, decide_eq_true_iff, h.isEmpty_iff]
      exact hempty
    have hintact := h.toTableKeeps.intact_of_stored h.reads 0 doMerge q
    have hloop := h.toTableKeeps.getLoop_iff op inplace 0 hintact
    simp only [under_zero, List.map_id'] at hloop
    rw [if_neg hfirst]
    exact hloop

end Get

/-- The calls of `Add` go through, and then `Get` gives what a map of the plaintext gives. -/
def GetCorrect (E : MemTableEnv) (history : MemTableHistory E.ucmp) (memory : Memory)
    (shardCount : ℕ) (op : AssociativeMergeOperator) (inplace doMerge : Bool)
    (q : MemTableLookup) : Prop :=
  ∃ m, (MemTable.empty memory shardCount).addAll E history.calls = .ok m ∧
    m.get E (some op) inplace doMerge q.key q.snapshot =
      .ok (plainGet op doMerge q.key [] kMaxSequenceNumber (versions E.ucmp q history.adds))

/-- When that holds, as long as the host has memory for every value: each add fits, and for
the key and snapshot the records that the adds have left stand for the plaintext. -/
theorem getCorrect_iff (E : MemTableEnv) (history : MemTableHistory E.ucmp) (memory : Memory)
    (shardCount : ℕ) (op : AssociativeMergeOperator) (inplace doMerge : Bool)
    (q : MemTableLookup) (hhost : history.calls.length ≤ E.host.blocks) :
    GetCorrect E history memory shardCount op inplace doMerge q ↔
      (∀ c ∈ history.calls, AddFits c.2) ∧
        ∀ m, (MemTable.empty memory shardCount).addAll E history.calls = .ok m →
          GetFollows op doMerge q.key inplace []
            ((versions E.ucmp q history.adds).zip (m.visibleRecords E.ucmp q)) := by
  obtain ⟨hsome, honly⟩ := (MemTable.holds_empty E memory shardCount).addAll history.calls
    (by rwa [List.length_nil, Nat.zero_add]) history.distinct
  constructor
  · rintro ⟨m, hm, hget⟩
    have hfits := honly m hm
    obtain ⟨m', cells, regions, hm', h⟩ := hsome hfits
    cases hm.symm.trans hm'
    refine ⟨hfits, fun m'' hm'' => ?_⟩
    cases hm.symm.trans hm''
    exact h.get_iff.mp hget
  · rintro ⟨hfits, hfollows⟩
    obtain ⟨m, cells, regions, hm, h⟩ := hsome hfits
    exact ⟨m, hm, h.get_iff.mpr (hfollows m hm)⟩

/-- A host that hands out one block. -/
def sampleHost : BlockAllocator where
  blocks := 1
  base := fun _ => 4096
  inRange := fun _ _ => by decide
  apart := fun m n hm hn hmn => absurd (by omega : m = n) hmn

def sampleEnv : MemTableEnv := ⟨sampleGcm, sampleKey, bytewiseComparator, sampleHost⟩

theorem one_sequence : 0 < 1 ∧ 1 ≤ kMaxSequenceNumber := by decide

theorem two_sequence : 0 < 2 ∧ 2 ≤ kMaxSequenceNumber := by decide

theorem value_mem_pointTypes : ValueType.value ∈ pointTypes := by decide

theorem length_k : ([107] : Bytes).length ≤ 2 ^ 31 := by decide

theorem length_a : ([97] : Bytes).length ≤ 2 ^ 31 := by decide

/-- One put of a single byte. -/
def onePut : MemTableHistory sampleEnv.ucmp where
  calls := [(0, ⟨⟨1, one_sequence⟩, .value, [107], [118], value_mem_pointTypes, length_k⟩)]
  distinct := List.pairwise_singleton _ _

def sampleLookup : MemTableLookup := ⟨[107], 1, length_k, one_sequence.2⟩

/-- A merge that appends the operand. -/
def appendOperator : AssociativeMergeOperator := ⟨fun _ base v => some (base.getD [] ++ v)⟩

theorem getCorrect_iff_onePut :
    GetCorrect sampleEnv onePut (fun _ => 0) 1 appendOperator false true sampleLookup := by
  refine (getCorrect_iff sampleEnv onePut (fun _ => 0) 1 appendOperator false true sampleLookup
    (by decide)).mpr ⟨?_, ?_⟩
  · intro c hc
    obtain rfl := List.mem_singleton.mp hc
    exact ⟨by decide, by decide⟩
  · intro m _
    have hversions : versions sampleEnv.ucmp sampleLookup onePut.adds = onePut.adds := rfl
    rw [hversions]
    cases m.visibleRecords sampleEnv.ucmp sampleLookup with
    | nil => exact Or.inr rfl
    | cons r records => exact ⟨Or.inr rfl, Or.inl rfl⟩

/-- Without merging, the operand that comes back is the record of the value. -/
theorem onePut_not_getCorrect :
    ¬ GetCorrect sampleEnv onePut (fun _ => 0) 1 appendOperator false false sampleLookup := by
  rintro ⟨m, hm, hget⟩
  have hrecord : ((MemTable.empty (fun _ => 0) 1).addAll sampleEnv onePut.calls >>= fun m =>
      m.get sampleEnv (some appendOperator) false false sampleLookup.key sampleLookup.snapshot) ≠
      .ok (plainGet appendOperator false sampleLookup.key [] kMaxSequenceNumber
        (versions sampleEnv.ucmp sampleLookup onePut.adds)) := by
    decide
  rw [hm, Outcome.ok_bind] at hrecord
  exact hrecord hget

end Tweezer
