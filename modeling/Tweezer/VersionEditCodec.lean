import Tweezer.VersionEditRoundTrip

/-!
# What a decoded edit holds

A whole edit is read back field by field. The members for secrets and keys are not cleared
before, so they come from the object that decodes as much as from the edit; and a field for
them that is cut short is not noticed.
-/

namespace Tweezer

namespace EditFields

/-- Its strings have lengths that a length prefix can hold. -/
structure Short (f : EditFields) : Prop where
  dbId : ∀ s ∈ f.dbId, s.length < 2 ^ 32
  comparator : ∀ s ∈ f.comparator, s.length < 2 ^ 32
  newFiles : ∀ file ∈ f.newFiles, file.2.Short
  blobFileAdditions : ∀ a ∈ f.blobFileAdditions, a.Short
  columnFamilyAdd : ∀ s ∈ f.columnFamilyAdd, s.length < 2 ^ 32

/-- What of the standard fields is written: the number of the oldest log to keep travels with
a new file, and not without one. -/
def written (f : EditFields) : EditFields :=
  if f.newFiles = [] then { f with minLogNumberToKeep := none } else f

end EditFields

namespace VersionEdit

open DecodeState

/-- However far the bound on its turns reaches, the loop does from `s` what it does from `s'`. -/
def Leads (s s' : DecodeState) : Prop :=
  ∀ fuel, s.input.length < fuel →
    ∃ fuel', s'.input.length < fuel' ∧ decodeLoop fuel s = decodeLoop fuel' s'

theorem Leads.trans {s s' s'' : DecodeState} (h : Leads s s') (h' : Leads s' s'') :
    Leads s s'' := by
  intro fuel hfuel
  obtain ⟨fuel', hfuel', heq⟩ := h fuel hfuel
  obtain ⟨fuel'', hfuel'', heq'⟩ := h' fuel' hfuel'
  exact ⟨fuel'', hfuel'', heq.trans heq'⟩

theorem leads_of_decodeField {s : DecodeState} {tag : ℕ} {input : Bytes} {s' : DecodeState}
    (htag : getVarint32 s.input = some (tag, input)) (hlt : input.length < s.input.length)
    (hle : s'.input.length ≤ input.length)
    (h : decodeField { s with input := input } tag = .ok (.ok s')) : Leads s s' := by
  intro fuel hfuel
  obtain ⟨fuel, rfl⟩ := Nat.exists_eq_add_one.mpr (Nat.zero_lt_of_lt hfuel)
  refine ⟨fuel, by omega, ?_⟩
  rw [decodeLoop, htag]
  dsimp only
  rw [h]

/-- In front of anything, the loop takes `b` and makes `e'` of `e`. -/
def Reads (e : VersionEdit) (b : Bytes) (e' : VersionEdit) : Prop :=
  ∀ rest str, ∃ str', Leads ⟨e, b ++ rest, str⟩ ⟨e', rest, str'⟩

theorem Reads.nil (e : VersionEdit) : Reads e [] e :=
  fun _ str => ⟨str, fun fuel hfuel => ⟨fuel, hfuel, rfl⟩⟩

theorem Reads.append {e e' e'' : VersionEdit} {b b' : Bytes} (h : Reads e b e')
    (h' : Reads e' b' e'') : Reads e (b ++ b') e'' := by
  intro rest str
  obtain ⟨str', hlead⟩ := h (b' ++ rest) str
  obtain ⟨str'', hlead'⟩ := h' rest str'
  rw [← List.append_assoc] at hlead
  exact ⟨str'', hlead.trans hlead'⟩

theorem Reads.of_tag {e e' : VersionEdit} {t : Tag} {body : Bytes}
    (h : ∀ rest str, ∃ str',
      decodeTag ⟨e, body ++ rest, str⟩ t = .ok (.ok ⟨e', rest, str'⟩)) :
    Reads e (t.put ++ body) e' := by
  intro rest str
  obtain ⟨str', hfield⟩ := h rest str
  rw [← decodeField_code] at hfield
  have hput := Bytes.length_varintEncode_pos 4 (u32 t.code)
  have hlt : (body ++ rest).length < (t.put ++ (body ++ rest)).length := by
    have hsum : (t.put ++ (body ++ rest)).length = t.put.length + (body ++ rest).length :=
      List.length_append
    rw [hsum, Tag.put, putVarint32]
    omega
  refine ⟨str', ?_⟩
  rw [List.append_assoc]
  apply leads_of_decodeField (t.getVarint32_put _) hlt _ hfield
  show rest.length ≤ (body ++ rest).length
  rw [List.length_append]
  omega

/-! ### The fields that a reader of one value takes -/

theorem reads_field {α : Type} {t : Tag} {body : Bytes} {a : α} {msg : String}
    {set : α → VersionEdit → VersionEdit} (get : Bytes → Option (α × Bytes))
    (hget : ∀ rest, get (body ++ rest) = some (a, rest))
    (ht : ∀ s, decodeTag s t = s.field (get s.input) msg set) (e : VersionEdit) :
    Reads e (t.put ++ body) (set a e) := by
  apply Reads.of_tag
  intro rest str
  refine ⟨str, ?_⟩
  rw [ht]
  dsimp only
  rw [hget]
  rfl

theorem reads_strField {t : Tag} {value : Bytes} {msg : String}
    {set : Bytes → VersionEdit → VersionEdit} (hv : value.length < 2 ^ 32)
    (ht : ∀ s, decodeTag s t = s.strField msg set) (e : VersionEdit) :
    Reads e (t.put ++ putLengthPrefixedSlice value) (set value e) := by
  apply Reads.of_tag
  intro rest str
  refine ⟨⟨value ++ rest, value.length⟩, ?_⟩
  rw [ht, strField, Slice.getLengthPrefixed_put hv]
  dsimp only
  rw [Slice.toBytes, List.take_left]

theorem reads_record {α : Type} {t : Tag} {body : Bytes} {a : α} {prepend : String}
    {set : α → VersionEdit → VersionEdit} (dec : Bytes → Decoded α)
    (hdec : ∀ rest, dec (body ++ rest) = .ok (.ok (a, rest)))
    (ht : ∀ s, decodeTag s t = s.record (dec s.input) prepend set) (e : VersionEdit) :
    Reads e (t.put ++ body) (set a e) := by
  apply Reads.of_tag
  intro rest str
  refine ⟨str, ?_⟩
  rw [ht]
  dsimp only
  rw [hdec]
  rfl

/-- A field that is written when there is a value. -/
theorem reads_putField {α : Type} {t : Tag} {put : α → Bytes} (into : Option α → VersionEdit)
    {o : Option α} (h : ∀ a ∈ o, Reads (into none) (t.put ++ put a) (into (some a))) :
    Reads (into none) (putField t put o) (into o) := by
  cases o with
  | none => exact Reads.nil _
  | some a => exact h a rfl

theorem reads_putNumber {α : Type} {t : Tag} {put : α → Bytes} {msg : String}
    {set : α → VersionEdit → VersionEdit} (into : Option α → VersionEdit)
    (get : Bytes → Option (α × Bytes)) (hget : ∀ a rest, get (put a ++ rest) = some (a, rest))
    (ht : ∀ s, decodeTag s t = s.field (get s.input) msg set)
    (hset : ∀ a, set a (into none) = into (some a)) (o : Option α) :
    Reads (into none) (putField t put o) (into o) := by
  apply reads_putField into
  intro a _
  rw [← hset]
  exact reads_field get (hget a) ht (into none)

theorem reads_putString {t : Tag} {msg : String} {set : Bytes → VersionEdit → VersionEdit}
    (into : Option Bytes → VersionEdit) (ht : ∀ s, decodeTag s t = s.strField msg set)
    (hset : ∀ a, set a (into none) = into (some a)) {o : Option Bytes}
    (h : ∀ s ∈ o, s.length < 2 ^ 32) :
    Reads (into none) (putField t putLengthPrefixedSlice o) (into o) := by
  apply reads_putField into
  intro a ha
  rw [← hset]
  exact reads_strField (h a ha) ht (into none)

/-- A field that is written unless its value is what is there already. -/
theorem reads_unless {α : Type} {b : Bytes} {set : α → VersionEdit → VersionEdit}
    (into : α → VersionEdit) {a₀ a : α} (p : Prop) [Decidable p] (hp : ¬p → a = a₀)
    (h : p → ∀ e, Reads e b (set a e)) (hset : set a (into a₀) = into a) :
    Reads (into a₀) (if p then b else []) (into a) := by
  split_ifs with hwrite
  · have hread := h hwrite (into a₀)
    rwa [hset] at hread
  · rw [hp hwrite]
    exact Reads.nil _

/-- A list of records of one kind, each of which adds an element to what is there. -/
theorem reads_list {α : Type} {t : Tag} {put : α → Bytes} {set : α → VersionEdit → VersionEdit}
    (into : List α → VersionEdit) {l : List α}
    (h : ∀ a ∈ l, ∀ e, Reads e (t.put ++ put a) (set a e))
    (hset : ∀ l a, set a (into l) = into (l ++ [a])) (before : List α) :
    Reads (into before) (l.flatMap fun a => t.put ++ put a) (into (before ++ l)) := by
  induction l generalizing before with
  | nil =>
      rw [List.append_nil]
      exact Reads.nil _
  | cons a l ih =>
      have hhead := h a List.mem_cons_self (into before)
      have htail := ih (fun b hb => h b (List.mem_cons_of_mem a hb)) (before ++ [a])
      rw [hset] at hhead
      rw [List.append_assoc, List.singleton_append] at htail
      exact hhead.append htail

/-! ### The fields that are there without encryption -/

/-- An edit with other standard fields. -/
def setFields (d : VersionEdit) (f : EditFields) : VersionEdit := { d with toEditFields := f }

theorem clear_eq_setFields (d : VersionEdit) : d.clear = d.setFields {} := rfl

theorem insertFile_of_last {x : Int32 × UInt64} {files : List (Int32 × UInt64)}
    (h : ∀ y ∈ files, fileBefore y x) : insertFile x files = files ++ [x] := by
  induction files with
  | nil => rfl
  | cons y files ih =>
      have hy := h y List.mem_cons_self
      have hirrefl : ∀ z, ¬fileBefore z z := fun z => by simp [fileBefore]
      have hasymm : ¬fileBefore x y := fun hx => hirrefl _ (fileBefore_trans hx hy)
      have hne : x ≠ y := by
        rintro rfl
        exact hirrefl _ hy
      rw [insertFile, if_neg hasymm, if_neg hne, ih fun z hz => h z (List.mem_cons_of_mem y hz)]
      rfl

theorem foldl_insert_val {before after : List (Int32 × UInt64)} (hb : before.Pairwise fileBefore)
    (h : (before ++ after).Pairwise fileBefore) :
    (after.foldl (fun s x => DeletedFiles.insert x s) ⟨before, hb⟩).val = before ++ after := by
  induction after generalizing before with
  | nil => rw [List.append_nil, List.foldl_nil]
  | cons x after ih =>
      have hlast := insertFile_of_last fun y hy =>
        (List.pairwise_append.mp h).2.2 y hy x List.mem_cons_self
      rw [List.append_cons, ← hlast] at h ⊢
      exact ih (pairwise_insertFile x hb) h

/-- A set is what inserting its elements one by one gives. -/
theorem foldl_insert (files : DeletedFiles) :
    files.val.foldl (fun s x => DeletedFiles.insert x s) ⟨[], .nil⟩ = files :=
  Subtype.ext (foldl_insert_val .nil files.property)

/-- The records of the new files: the number of a log comes with the first of them. -/
theorem reads_newFiles (d : VersionEdit) (g : EditFields) {files : List (Int32 × FileMetaData)}
    (hs : ∀ file ∈ files, file.2.Short) (hv : ∀ file ∈ files, file.2.Valid)
    (minLogNumberToKeep : Option UInt64) :
    Reads (d.setFields g) (encodeNewFiles minLogNumberToKeep files)
      (d.setFields { g with
        newFiles := g.newFiles ++ files
        minLogNumberToKeep := if files = [] then g.minLogNumberToKeep
          else minLogNumberToKeep.orElse fun _ => g.minLogNumberToKeep }) := by
  induction files generalizing g minLogNumberToKeep with
  | nil =>
      rw [List.append_nil, if_pos rfl]
      exact Reads.nil _
  | cons file files ih =>
      obtain ⟨level, f⟩ := file
      have hs' := hs _ List.mem_cons_self
      have hv' := hv _ List.mem_cons_self
      have hhead := reads_record (t := .kNewFile4) decodeNewFile4From
        (decodeNewFile4From_encodeTo hs' hv' level minLogNumberToKeep)
        (fun _ => by rw [decodeTag])
        (d.setFields g)
      have htail := ih { g with
          newFiles := g.newFiles ++ [(level, f)]
          minLogNumberToKeep := minLogNumberToKeep.orElse fun _ => g.minLogNumberToKeep }
        (fun x hx => hs x (List.mem_cons_of_mem _ hx))
        (fun x hx => hv x (List.mem_cons_of_mem _ hx)) none
      dsimp only at htail
      rw [List.append_assoc, List.singleton_append, Option.orElse_none, ite_self] at htail
      rw [if_neg (List.cons_ne_nil _ _), encodeNewFiles, ← List.append_assoc]
      exact hhead.append htail

/-- The level and the number that `kDeletedFile` reads. -/
def getDeletedFile (input : Bytes) : Option ((Int32 × UInt64) × Bytes) := do
  let (level, input) ← getLevel input
  let (number, input) ← getVarint64Of input
  some ((level, number), input)

theorem reads_deletedFiles (d : VersionEdit) (g : EditFields) (files : DeletedFiles) :
    Reads (d.setFields { g with deletedFiles := ⟨[], .nil⟩ })
      (files.val.flatMap fun x => Tag.kDeletedFile.put ++
        (putVarint32Of x.1.toUInt32 ++ putVarint64Of x.2))
      (d.setFields { g with deletedFiles := files }) := by
  have hread := reads_list (t := .kDeletedFile) (l := files.val)
    (fun l => d.setFields { g with
      deletedFiles := l.foldl (fun s x => DeletedFiles.insert x s) ⟨[], .nil⟩ })
    (fun x _ => reads_field (a := x) getDeletedFile (by
        intro rest
        rw [getDeletedFile, List.append_assoc, getLevel_putVarint32Of, Option.bind_eq_bind, Option.bind_some]
        dsimp only
        rw [getVarint64Of_putVarint64Of]
        rfl) (fun _ => by
        rw [decodeTag]
        rfl))
    (fun l x => by
      rw [List.foldl_append]
      rfl) []
  rw [List.nil_append, foldl_insert] at hread
  exact hread

theorem reads_blobFileAdditions (d : VersionEdit) (g : EditFields) {l : List BlobFileAddition}
    (h : ∀ a ∈ l, a.Short) :
    Reads (d.setFields { g with blobFileAdditions := [] })
      (l.flatMap fun a => Tag.kBlobFileAddition.put ++ a.encodeTo)
      (d.setFields { g with blobFileAdditions := l }) :=
  reads_list (fun l => d.setFields { g with blobFileAdditions := l })
    (fun a ha => reads_record BlobFileAddition.decodeFrom
      (BlobFileAddition.decodeFrom_encodeTo (h a ha)) (fun _ => by rw [decodeTag]))
    (fun _ _ => by rfl) []

theorem reads_blobFileGarbages (d : VersionEdit) (g : EditFields) (l : List BlobFileGarbage) :
    Reads (d.setFields { g with blobFileGarbages := [] })
      (l.flatMap fun a => Tag.kBlobFileGarbage.put ++ a.encodeTo)
      (d.setFields { g with blobFileGarbages := l }) :=
  reads_list (fun l => d.setFields { g with blobFileGarbages := l })
    (fun a _ => reads_record BlobFileGarbage.decodeFrom a.decodeFrom_encodeTo
      (fun _ => by rw [decodeTag])) (fun _ _ => by rfl) []

theorem reads_walAdditions (d : VersionEdit) (g : EditFields) (l : List WalAddition) :
    Reads (d.setFields { g with walAdditions := [] })
      (l.flatMap fun a => Tag.kWalAddition.put ++ a.encodeTo)
      (d.setFields { g with walAdditions := l }) :=
  reads_list (fun l => d.setFields { g with walAdditions := l })
    (fun a _ => reads_record WalAddition.decodeFrom a.decodeFrom_encodeTo
      (fun _ => by rw [decodeTag])) (fun _ _ => by rfl) []

theorem reads_columnFamilyDrop (d : VersionEdit) (g : EditFields) (isDrop : Bool) :
    Reads (d.setFields { g with isColumnFamilyDrop := false })
      (if isDrop then Tag.kColumnFamilyDrop.put else [])
      (d.setFields { g with isColumnFamilyDrop := isDrop }) := by
  cases isDrop with
  | false => exact Reads.nil _
  | true =>
      rw [if_pos rfl, ← List.append_nil (Tag.put _)]
      exact Reads.of_tag fun rest str => ⟨str, rfl⟩

theorem reads_editFields (d : VersionEdit) {f : EditFields} (h : f.Short)
    (hv : ∀ file ∈ f.newFiles, file.2.Valid) :
    Reads d.clear f.encodeTo (d.setFields f.written) := by
  let f₁ : EditFields := { dbId := f.dbId }
  let f₂ : EditFields := { f₁ with comparator := f.comparator }
  let f₃ : EditFields := { f₂ with logNumber := f.logNumber }
  let f₄ : EditFields := { f₃ with prevLogNumber := f.prevLogNumber }
  let f₅ : EditFields := { f₄ with nextFileNumber := f.nextFileNumber }
  let f₆ : EditFields := { f₅ with maxColumnFamily := f.maxColumnFamily }
  let f₇ : EditFields := { f₆ with lastSequence := f.lastSequence }
  let f₈ : EditFields := { f₇ with deletedFiles := f.deletedFiles }
  let f₉ : EditFields := { f₈ with
    newFiles := f.newFiles
    minLogNumberToKeep := if f.newFiles = [] then none else f.minLogNumberToKeep }
  let f₁₀ : EditFields := { f₉ with blobFileAdditions := f.blobFileAdditions }
  let f₁₁ : EditFields := { f₁₀ with blobFileGarbages := f.blobFileGarbages }
  let f₁₂ : EditFields := { f₁₁ with walAdditions := f.walAdditions }
  let f₁₃ : EditFields := { f₁₂ with walDeletion := f.walDeletion }
  let f₁₄ : EditFields := { f₁₃ with columnFamily := f.columnFamily }
  let f₁₅ : EditFields := { f₁₄ with columnFamilyAdd := f.columnFamilyAdd }
  let f₁₆ : EditFields := { f₁₅ with isColumnFamilyDrop := f.isColumnFamilyDrop }
  let f₁₇ : EditFields := { f₁₆ with atomicGroup := f.atomicGroup }
  have h₁ : Reads d.clear _ (d.setFields f₁) :=
    reads_putString (t := .kDbId) (fun o => d.setFields { dbId := o })
      (fun _ => by rw [decodeTag]) (fun _ => by rfl) h.dbId
  have h₂ : Reads (d.setFields f₁) _ (d.setFields f₂) :=
    reads_putString (t := .kComparator) (fun o => d.setFields { f₁ with comparator := o })
      (fun _ => by rw [decodeTag]) (fun _ => by rfl) h.comparator
  have h₃ : Reads (d.setFields f₂) _ (d.setFields f₃) :=
    reads_putNumber (t := .kLogNumber) (fun o => d.setFields { f₂ with logNumber := o })
      getVarint64Of getVarint64Of_putVarint64Of (fun _ => by rw [decodeTag]) (fun _ => by rfl) _
  have h₄ : Reads (d.setFields f₃) _ (d.setFields f₄) :=
    reads_putNumber (t := .kPrevLogNumber) (fun o => d.setFields { f₃ with prevLogNumber := o })
      getVarint64Of getVarint64Of_putVarint64Of (fun _ => by rw [decodeTag]) (fun _ => by rfl) _
  have h₅ : Reads (d.setFields f₄) _ (d.setFields f₅) :=
    reads_putNumber (t := .kNextFileNumber) (fun o => d.setFields { f₄ with nextFileNumber := o })
      getVarint64Of getVarint64Of_putVarint64Of (fun _ => by rw [decodeTag]) (fun _ => by rfl) _
  have h₆ : Reads (d.setFields f₅) _ (d.setFields f₆) :=
    reads_putNumber (t := .kMaxColumnFamily) (fun o => d.setFields { f₅ with maxColumnFamily := o })
      getVarint32Of getVarint32Of_putVarint32Of (fun _ => by rw [decodeTag]) (fun _ => by rfl) _
  have h₇ : Reads (d.setFields f₆) _ (d.setFields f₇) :=
    reads_putNumber (t := .kLastSequence) (fun o => d.setFields { f₆ with lastSequence := o })
      getVarint64Of getVarint64Of_putVarint64Of (fun _ => by rw [decodeTag]) (fun _ => by rfl) _
  have h₈ : Reads (d.setFields f₇) _ (d.setFields f₈) := reads_deletedFiles d f₇ f.deletedFiles
  have h₉ : Reads (d.setFields f₈) (encodeNewFiles f.minLogNumberToKeep f.newFiles)
      (d.setFields f₉) := by
    have hread := reads_newFiles d f₈ h.newFiles hv f.minLogNumberToKeep
    have hmin : (f.minLogNumberToKeep.orElse fun _ => f₈.minLogNumberToKeep) =
        f.minLogNumberToKeep := by
      cases f.minLogNumberToKeep <;> rfl
    rw [hmin] at hread
    exact hread
  have h₁₀ : Reads (d.setFields f₉) _ (d.setFields f₁₀) :=
    reads_blobFileAdditions d f₉ h.blobFileAdditions
  have h₁₁ : Reads (d.setFields f₁₀) _ (d.setFields f₁₁) :=
    reads_blobFileGarbages d f₁₀ f.blobFileGarbages
  have h₁₂ : Reads (d.setFields f₁₁) _ (d.setFields f₁₂) :=
    reads_walAdditions d f₁₁ f.walAdditions
  have h₁₃ : Reads (d.setFields f₁₂) (if f.walDeletion ≠ 0 then
      Tag.kWalDeletion.put ++ putVarint64Of f.walDeletion else []) (d.setFields f₁₃) :=
    reads_unless (fun n => d.setFields { f₁₂ with walDeletion := n }) _ not_not.mp
      (fun _ => reads_record (fun input => Decoded.after
        "WalDeletion: Error decoding WAL log number" (getVarint64Of input)
        fun n input => .ok (.ok (n, input)))
        (fun rest => by rw [getVarint64Of_putVarint64Of, Decoded.after_some])
        (fun _ => by rw [decodeTag])) (by rfl)
  have h₁₄ : Reads (d.setFields f₁₃) (if f.columnFamily ≠ 0 then
      Tag.kColumnFamily.put ++ putVarint32Of f.columnFamily else []) (d.setFields f₁₄) :=
    reads_unless (fun n => d.setFields { f₁₃ with columnFamily := n }) _ not_not.mp
      (fun _ => reads_field getVarint32Of (getVarint32Of_putVarint32Of _)
        (fun _ => by rw [decodeTag])) (by rfl)
  have h₁₅ : Reads (d.setFields f₁₄) _ (d.setFields f₁₅) :=
    reads_putString (t := .kColumnFamilyAdd)
      (fun o => d.setFields { f₁₄ with columnFamilyAdd := o })
      (fun _ => by rw [decodeTag]) (fun _ => by rfl) h.columnFamilyAdd
  have h₁₆ : Reads (d.setFields f₁₅) (if f.isColumnFamilyDrop then Tag.kColumnFamilyDrop.put
      else []) (d.setFields f₁₆) :=
    reads_columnFamilyDrop d f₁₅ f.isColumnFamilyDrop
  have h₁₇ : Reads (d.setFields f₁₆) _ (d.setFields f₁₇) :=
    reads_putNumber (t := .kInAtomicGroup) (fun o => d.setFields { f₁₆ with atomicGroup := o })
      getVarint32Of getVarint32Of_putVarint32Of (fun _ => by rw [decodeTag]) (fun _ => by rfl) _
  have hwritten : f₁₇ = f.written := by
    by_cases hnil : f.newFiles = []
    · rw [EditFields.written, if_pos hnil]
      simp only [f₁₇, f₁₆, f₁₅, f₁₄, f₁₃, f₁₂, f₁₁, f₁₀, f₉, if_pos hnil]
      rfl
    · rw [EditFields.written, if_neg hnil]
      simp only [f₁₇, f₁₆, f₁₅, f₁₄, f₁₃, f₁₂, f₁₁, f₁₀, f₉, if_neg hnil]
      rfl
  rw [← hwritten]
  exact h₁.append (h₂.append (h₃.append (h₄.append (h₅.append (h₆.append (h₇.append
    (h₈.append (h₉.append (h₁₀.append (h₁₁.append (h₁₂.append (h₁₃.append (h₁₄.append
      (h₁₅.append (h₁₆.append h₁₇)))))))))))))))

/-! ### The secret fields -/

/-- What an edit holds behind a secret field. -/
def setSecret (e : VersionEdit) : SecretField → VersionEdit
  | .logkeyAndHash secret => { e with isLogSecret := true, logSecret := secret }
  | .sstAdd fileNumber sstKey => e.addSstKey fileNumber sstKey
  | .sstDelete fileNumber => e.deleteSstKey fileNumber

theorem fetchOctets_append {n : ℕ} (a : Octets n) (rest : Bytes) :
    Bytes.fetchOctets (a.val ++ rest) 0 n = .ok a := by
  have hlen : 0 + n ≤ (a.val ++ rest).length := by
    rw [List.length_append, a.property]
    omega
  rw [Bytes.fetchOctets_of_le hlen]
  exact congrArg Except.ok (Subtype.ext (Bytes.slice_zero_append a.property))

theorem fixed64_put (e : VersionEdit) (number : UInt64) (rest : Bytes) (str : Slice)
    (set : UInt64 → VersionEdit → VersionEdit) :
    fixed64 ⟨e, putFixed64 number ++ rest, str⟩ set = ⟨set number e, rest, str⟩ := by
  rw [fixed64, getFixed64_putFixed64]

theorem copy_put {n : ℕ} (hn : n < 2 ^ 32) (e : VersionEdit) (a : Octets n) (rest : Bytes)
    (str : Slice) (set : Octets n → VersionEdit → VersionEdit) :
    copy ⟨e, putLengthPrefixedSlice a.val ++ rest, str⟩ n set =
      .ok ⟨set a e, rest, ⟨a.val ++ rest, n⟩⟩ := by
  have ha : a.val.length < 2 ^ 32 := by rwa [a.property]
  rw [copy, Slice.getLengthPrefixed_put ha]
  dsimp only [Option.getD_some]
  rw [fetchOctets_append, a.property]

theorem reads_secretField (e : VersionEdit) (f : SecretField) :
    Reads e f.encodeTo (e.setSecret f) := by
  apply Reads.of_tag
  intro rest str
  cases f with
  | logkeyAndHash secret =>
      refine ⟨⟨secret.uniqueHash.val ++ rest, 16⟩, ?_⟩
      simp only [SecretField.body, SecretField.tag, decodeTag, logkeyAndHash, List.append_assoc,
        fixed64_put]
      rw [copy_put (by decide), Outcome.ok_bind, copy_put (by decide)]
      rfl
  | sstAdd fileNumber sstKey =>
      refine ⟨⟨sstKey.val ++ rest, 32⟩, ?_⟩
      simp only [SecretField.body, SecretField.tag, decodeTag, sstAdd, List.append_assoc,
        fixed64_put]
      rw [copy_put (by decide)]
      rfl
  | sstDelete fileNumber =>
      refine ⟨str, ?_⟩
      simp only [SecretField.body, SecretField.tag, decodeTag, sstDelete, fixed64_put]
      rfl

theorem reads_secretFields (e : VersionEdit) (fs : List SecretField) :
    Reads e (fs.flatMap SecretField.encodeTo) (fs.foldl setSecret e) := by
  induction fs generalizing e with
  | nil => exact Reads.nil e
  | cons f fs ih => exact (reads_secretField e f).append (ih (e.setSecret f))

/-! ### Whole edits -/

/-- What decoding `e` leaves in an object that held `d`. -/
def restored (d e : VersionEdit) : VersionEdit :=
  e.secretFields.foldl setSecret (d.setFields e.written)

theorem decodeFrom_of_reads {d e' : VersionEdit} {b : Bytes} (h : Reads d.clear b e') :
    d.decodeFrom b = .ok (.ok e') := by
  obtain ⟨str', hlead⟩ := h [] .empty
  rw [List.append_nil] at hlead
  obtain ⟨fuel, hfuel, heq⟩ := hlead (b.length + 1) (Nat.lt_succ_self _)
  obtain ⟨fuel, rfl⟩ := Nat.exists_eq_add_one.mpr (Nat.zero_lt_of_lt hfuel)
  rw [decodeFrom, heq]
  rfl

theorem encodeTo_eq_some {e : VersionEdit} {b : Bytes} (h : e.encodeTo = some b) :
    (∀ file ∈ e.newFiles, file.2.Valid) ∧
      b = e.toEditFields.encodeTo ++ e.secretFields.flatMap SecretField.encodeTo := by
  unfold encodeTo at h
  split_ifs at h with hall
  refine ⟨fun file hfile => ?_, (Option.some.inj h).symm⟩
  have hboth := List.all_eq_true.mp hall file hfile
  rw [Bool.and_eq_true] at hboth
  exact hboth

/-- An edit of short strings is decoded, and the fields in it take the place of what the
object held. -/
theorem decodeFrom_encodeTo (d : VersionEdit) {e : VersionEdit} {b : Bytes}
    (h : e.encodeTo = some b) (hs : e.Short) : d.decodeFrom b = .ok (.ok (d.restored e)) := by
  obtain ⟨hv, rfl⟩ := encodeTo_eq_some h
  exact decodeFrom_of_reads ((reads_editFields d hs hv).append (reads_secretFields _ _))

end VersionEdit

end Tweezer
