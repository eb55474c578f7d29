import Tweezer.VersionEdit

/-!
# Decoding version edits

`VersionEdit::DecodeFrom` of `db/version_edit.cc`. An unknown tag or a field that does not
parse ends it with a `Corruption`. The readers of secrets and keys are the exception: what
the calls that parse them return is not looked at, and the bytes are copied from wherever the
last slice points.
-/

namespace Tweezer

/-- A `Slice` into the input: all bytes from its first one to the end of the input, and its
size. -/
structure Slice where
  data : Bytes
  size : ℕ

namespace Slice

/-- A slice of nothing, outside the input. -/
def empty : Slice := ⟨[], 0⟩

def toBytes (s : Slice) : Bytes := s.data.take s.size

/-- `GetLengthPrefixedSlice`, and the input behind it. A length that is too large has been
read all the same. -/
def getLengthPrefixed (input : Bytes) : Option Slice × Bytes :=
  match getVarint32 input with
  | none => (none, input)
  | some (len, input) =>
      if len ≤ input.length then (some ⟨input, len⟩, input.drop len) else (none, input)

end Slice

/-! ### Readers of one value -/

def getVarint64Of (input : Bytes) : Option (UInt64 × Bytes) :=
  (getVarint64 input).map fun r => (UInt64.ofNat r.1, r.2)

def getVarint32Of (input : Bytes) : Option (UInt32 × Bytes) :=
  (getVarint32 input).map fun r => (UInt32.ofNat r.1, r.2)

def getFixed64 (input : Bytes) : Option (UInt64 × Bytes) :=
  if 8 ≤ input.length then some (UInt64.ofNat (Bytes.leDecode (input.take 8)), input.drop 8)
  else none

/-- A string behind its length. -/
def getString (input : Bytes) : Option (Bytes × Bytes) :=
  match Slice.getLengthPrefixed input with
  | (some str, input) => some (str.toBytes, input)
  | (none, _) => none

def getLevel (input : Bytes) : Option (Int32 × Bytes) :=
  (getVarint32Of input).map fun r => (r.1.toInt32, r.2)

def getInternalKey (input : Bytes) : Option (Bytes × Bytes) := do
  let (key, input) ← getString input
  if internalKeyValid key then some (key, input) else none

/-- What a reader of a record returns: the record and the input behind it, or a message. -/
abbrev Decoded (α : Type) := Outcome (Except String (α × Bytes))

/-- Goes on with what a reader returned, or stops with `msg`. -/
def Decoded.after {α β : Type} (msg : String) (r : Option (α × Bytes))
    (next : α → Bytes → Decoded β) : Decoded β :=
  match r with
  | some (a, input) => next a input
  | none => .ok (.error msg)

/-- Goes on behind a record, if it was one. -/
def Decoded.andThen {α β : Type} (r : Decoded α) (next : α → Bytes → Decoded β) : Decoded β :=
  match r with
  | .ok (.ok (a, input)) => next a input
  | .ok (.error msg) => .ok (.error msg)
  | .error e => .error e

/-! ### Records -/

/-- The loop over the custom fields of a blob file record, none of which is known. -/
def skipCustomFields (className : String) : ℕ → Bytes → Decoded Unit
  | 0, _ => .error .diverged
  | fuel + 1, input =>
      Decoded.after (className ++ ": Error decoding custom field tag") (getVarint32 input)
        fun tag input =>
          if tag = 0 then .ok (.ok ((), input))
          else if tag / 2 ^ 6 % 2 = 1 then
            .ok (.error (className ++ ": Forward incompatible custom field encountered"))
          else Decoded.after (className ++ ": Error decoding custom field value")
            (getString input) fun _ input => skipCustomFields className fuel input

def BlobFileAddition.decodeFrom (input : Bytes) : Decoded BlobFileAddition :=
  Decoded.after "BlobFileAddition: Error decoding blob file number" (getVarint64Of input)
    fun number input =>
  Decoded.after "BlobFileAddition: Error decoding total blob count" (getVarint64Of input)
    fun count input =>
  Decoded.after "BlobFileAddition: Error decoding total blob bytes" (getVarint64Of input)
    fun bytes input =>
  Decoded.after "BlobFileAddition: Error decoding checksum method" (getString input)
    fun method input =>
  Decoded.after "BlobFileAddition: Error decoding checksum value" (getString input)
    fun value input =>
  (skipCustomFields "BlobFileAddition" (input.length + 1) input).andThen fun _ input =>
    .ok (.ok (⟨number, count, bytes, method, value⟩, input))

def BlobFileGarbage.decodeFrom (input : Bytes) : Decoded BlobFileGarbage :=
  Decoded.after "BlobFileGarbage: Error decoding blob file number" (getVarint64Of input)
    fun number input =>
  Decoded.after "BlobFileGarbage: Error decoding garbage blob count" (getVarint64Of input)
    fun count input =>
  Decoded.after "BlobFileGarbage: Error decoding garbage blob bytes" (getVarint64Of input)
    fun bytes input =>
  (skipCustomFields "BlobFileGarbage" (input.length + 1) input).andThen fun _ input =>
    .ok (.ok (⟨number, count, bytes⟩, input))

/-- The loop of `WalAddition::DecodeFrom`. -/
def WalAddition.decodeTags : ℕ → WalAddition → Bytes → Decoded WalAddition
  | 0, _, _ => .error .diverged
  | fuel + 1, w, input =>
      Decoded.after "WalAddition: Error decoding tag" (getVarint32 input) fun tag input =>
        if tag = 2 then
          Decoded.after "WalAddition: Error decoding WAL file size" (getVarint64Of input)
            fun size input => decodeTags fuel { w with syncedSizeBytes := size } input
        else if tag = 1 then .ok (.ok (w, input))
        else .ok (.error ("WalAddition: Unknown tag " ++ toString tag))

def WalAddition.decodeFrom (input : Bytes) : Decoded WalAddition :=
  Decoded.after "WalAddition: Error decoding WAL log number" (getVarint64Of input)
    fun number input => decodeTags (input.length + 1) { number := number } input

/-- What the custom fields of a `kNewFile4` record set. -/
structure CustomFields where
  file : FileMetaData := {}
  pathId : UInt32 := 0
  minLogNumberToKeep : Option UInt64 := none

namespace CustomFields

/-- The case distinction over custom tags. -/
def set (c : CustomFields) (field : Bytes) : NewFileCustomTag → Except String CustomFields
  | .kPathId =>
      match field with
      | [pathId] => if pathId.toNat ≤ 3 then .ok { c with pathId := pathId.toUInt32 }
          else .error "path_id wrong vaue"
      | _ => .error "path_id field wrong size"
  | .kOldestAncesterTime =>
      match getVarint64Of field with
      | some (time, _) => .ok { c with file := { c.file with oldestAncesterTime := time } }
      | none => .error "invalid oldest ancester time"
  | .kFileCreationTime =>
      match getVarint64Of field with
      | some (time, _) => .ok { c with file := { c.file with fileCreationTime := time } }
      | none => .error "invalid file creation time"
  | .kFileChecksum => .ok { c with file := { c.file with fileChecksum := field } }
  | .kFileChecksumFuncName =>
      .ok { c with file := { c.file with fileChecksumFuncName := field } }
  | .kNeedCompaction =>
      match field with
      | [flag] => .ok { c with file := { c.file with markedForCompaction := flag = 1 } }
      | _ => .error "need_compaction field wrong size"
  | .kMinLogNumberToKeepHack =>
      match getFixed64 field with
      | some (number, _) => .ok { c with minLogNumberToKeep := some number }
      | none => .error "deleted log number malformatted"
  | .kOldestBlobFileNumber =>
      match getVarint64Of field with
      | some (number, _) => .ok { c with file := { c.file with oldestBlobFileNumber := number } }
      | none => .error "invalid oldest blob file number"
  | .kTerminate => .ok c

/-- The loop over custom fields, behind the fixed ones. -/
def decodeLoop : ℕ → CustomFields → Bytes → Decoded CustomFields
  | 0, _, _ => .error .diverged
  | fuel + 1, c, input =>
      Decoded.after "new-file4 custom field" (getVarint32 input) fun tag input =>
        if tag = NewFileCustomTag.kTerminate.code then .ok (.ok (c, input))
        else Decoded.after "new-file4 custom field length prefixed slice error" (getString input)
          fun field input =>
            match NewFileCustomTag.ofCode? tag with
            | some t =>
                match c.set field t with
                | .ok c => decodeLoop fuel c input
                | .error msg => .ok (.error msg)
            | none =>
                if tag / kCustomTagNonSafeIgnoreMask % 2 = 1 then
                  .ok (.error "new-file4 custom field not supported")
                else decodeLoop fuel c input

end CustomFields

/-- `DecodeNewFile4From`: a level and a file, and the number of a log that came with it. -/
def decodeNewFile4From (input : Bytes) :
    Decoded ((Int32 × FileMetaData) × Option UInt64) :=
  Decoded.after "new-file4 entry" (getLevel input) fun level input =>
  Decoded.after "new-file4 entry" (getVarint64Of input) fun number input =>
  Decoded.after "new-file4 entry" (getVarint64Of input) fun fileSize input =>
  Decoded.after "new-file4 entry" (getInternalKey input) fun smallest input =>
  Decoded.after "new-file4 entry" (getInternalKey input) fun largest input =>
  Decoded.after "new-file4 entry" (getVarint64Of input) fun smallestSeqno input =>
  Decoded.after "new-file4 entry" (getVarint64Of input) fun largestSeqno input =>
  (CustomFields.decodeLoop (input.length + 1)
      { file := { smallest := smallest, largest := largest } } input).andThen fun c input =>
    let fd := .create number c.pathId fileSize smallestSeqno largestSeqno
    .ok (.ok (((level, { c.file with fd := fd }), c.minLogNumberToKeep), input))

/-- The path id of a `kNewFile3` record. -/
def getPathId (withPathId : Bool) (input : Bytes) : Option (UInt32 × Bytes) :=
  if withPathId then getVarint32Of input else some (0, input)

/-- The sequence numbers of a `kNewFile2` or `kNewFile3` record; without them a file has those
of `FileDescriptor(number, path_id, file_size)`. -/
def getSeqnos (withSeqnos : Bool) (input : Bytes) : Option ((UInt64 × UInt64) × Bytes) :=
  if withSeqnos then do
    let (smallestSeqno, input) ← getVarint64Of input
    let (largestSeqno, input) ← getVarint64Of input
    some ((smallestSeqno, largestSeqno), input)
  else some ((UInt64.ofNat kMaxSequenceNumber, 0), input)

/-- The records `kNewFile`, `kNewFile2` and `kNewFile3`. -/
def decodeNewFile (withPathId withSeqnos : Bool) (input : Bytes) :
    Option ((Int32 × FileMetaData) × Bytes) := do
  let (level, input) ← getLevel input
  let (number, input) ← getVarint64Of input
  let (pathId, input) ← getPathId withPathId input
  let (fileSize, input) ← getVarint64Of input
  let (smallest, input) ← getInternalKey input
  let (largest, input) ← getInternalKey input
  let (seqnos, input) ← getSeqnos withSeqnos input
  let fd := FileDescriptor.create number pathId fileSize seqnos.1 seqnos.2
  some ((level, { fd := fd, smallest := smallest, largest := largest }), input)

/-! ### Edits -/

/-- `std::set::insert`. -/
def insertFile (d : Int32 × UInt64) : List (Int32 × UInt64) → List (Int32 × UInt64)
  | [] => [d]
  | x :: files =>
      if fileBefore d x then d :: x :: files
      else if d = x then x :: files
      else x :: insertFile d files

theorem fileBefore_trans {a b c : Int32 × UInt64} (h : fileBefore a b) (h' : fileBefore b c) :
    fileBefore a c := by
  unfold fileBefore at *
  simp only [Int32.lt_iff_toInt_lt, UInt64.lt_iff_toNat_lt, ← Int32.toInt_inj] at *
  omega

theorem fileBefore_total {a b : Int32 × UInt64} (h : ¬fileBefore a b) (hne : a ≠ b) :
    fileBefore b a := by
  have hpair : a.1 = b.1 → a.2 ≠ b.2 := fun h₁ h₂ => hne (Prod.ext h₁ h₂)
  unfold fileBefore at *
  simp only [Int32.lt_iff_toInt_lt, UInt64.lt_iff_toNat_lt, ← Int32.toInt_inj,
    ← UInt64.toNat_inj, ne_eq] at *
  omega

theorem mem_insertFile {d x : Int32 × UInt64} {files : List (Int32 × UInt64)}
    (h : x ∈ insertFile d files) : x = d ∨ x ∈ files := by
  induction files with
  | nil => exact Or.inl (List.mem_singleton.mp h)
  | cons y files ih =>
      rw [insertFile] at h
      split_ifs at h with hlt heq
      · exact List.mem_cons.mp h
      · exact Or.inr h
      · rcases List.mem_cons.mp h with rfl | h
        · exact Or.inr List.mem_cons_self
        · exact (ih h).imp_right (List.mem_cons_of_mem y)

theorem pairwise_insertFile (d : Int32 × UInt64) {files : List (Int32 × UInt64)}
    (h : files.Pairwise fileBefore) : (insertFile d files).Pairwise fileBefore := by
  induction files with
  | nil => exact List.pairwise_singleton _ _
  | cons x files ih =>
      obtain ⟨hx, hfiles⟩ := List.pairwise_cons.mp h
      rw [insertFile]
      split_ifs with hlt heq
      · refine List.pairwise_cons.mpr ⟨fun y hy => ?_, h⟩
        rcases List.mem_cons.mp hy with rfl | hy
        · exact hlt
        · exact fileBefore_trans hlt (hx y hy)
      · exact h
      · refine List.pairwise_cons.mpr ⟨fun y hy => ?_, ih hfiles⟩
        rcases mem_insertFile hy with rfl | hy
        · exact fileBefore_total hlt heq
        · exact hx y hy

def DeletedFiles.insert (d : Int32 × UInt64) (files : DeletedFiles) : DeletedFiles :=
  ⟨insertFile d files.val, pairwise_insertFile d files.property⟩

namespace VersionEdit

/-- The state of the loop of `DecodeFrom`: `str` is declared outside of it, and keeps what the
last field with a string left there. -/
structure DecodeState where
  edit : VersionEdit
  input : Bytes
  str : Slice

abbrev Step := Outcome (Except String DecodeState)

def corruption (msg : String) : Step := .ok (.error ("VersionEdit: " ++ msg))

namespace DecodeState

/-- A field that is read into a local variable or into the edit. -/
def field {α : Type} (s : DecodeState) (r : Option (α × Bytes)) (msg : String)
    (set : α → VersionEdit → VersionEdit) : Step :=
  match r with
  | some (a, input) => .ok (.ok { s with edit := set a s.edit, input := input })
  | none => corruption msg

/-- A field that is read into `str` first. -/
def strField (s : DecodeState) (msg : String) (set : Bytes → VersionEdit → VersionEdit) : Step :=
  match Slice.getLengthPrefixed s.input with
  | (some str, input) => .ok (.ok ⟨set str.toBytes s.edit, input, str⟩)
  | (none, _) => corruption msg

/-- A record with a reader of its own, whose status is returned. -/
def record {α : Type} (s : DecodeState) (r : Decoded α) (prepend : String)
    (set : α → VersionEdit → VersionEdit) : Step :=
  match r with
  | .ok (.ok (a, input)) => .ok (.ok { s with edit := set a s.edit, input := input })
  | .ok (.error msg) => .ok (.error (prepend ++ msg))
  | .error e => .error e

/-- `GetFixed64` as the secret fields call it. -/
def fixed64 (s : DecodeState) (set : UInt64 → VersionEdit → VersionEdit) : DecodeState :=
  match getFixed64 s.input with
  | some (number, input) => { s with edit := set number s.edit, input := input }
  | none => s

/-- `GetLengthPrefixedSlice` into `str` and a copy of `n` bytes from there, as the secret
fields do it. -/
def copy (s : DecodeState) (n : ℕ) (set : Octets n → VersionEdit → VersionEdit) :
    Outcome DecodeState :=
  let (str, input) := Slice.getLengthPrefixed s.input
  let str := str.getD s.str
  match str.data.fetchOctets 0 n with
  | .ok bytes => .ok ⟨set bytes s.edit, input, str⟩
  | .error e => .error e

def logkeyAndHash (s : DecodeState) : Outcome DecodeState := do
  let s := { s with edit := { s.edit with isLogSecret := true } }
  let s := s.fixed64 fun number e =>
    { e with logSecret := { e.logSecret with logNum := number } }
  let s ← s.copy 32 fun key e => { e with logSecret := { e.logSecret with uniqueKey := key } }
  s.copy 16 fun hash e => { e with logSecret := { e.logSecret with uniqueHash := hash } }

def sstAdd (s : DecodeState) : Outcome DecodeState :=
  let s := { s with edit := { s.edit with isSstKey := true } }
  let s := s.fixed64 fun number e => { e with sstFileNumber := number }
  s.copy 32 fun key e => { e with sstKey := key }

def sstDelete (s : DecodeState) : DecodeState :=
  let s := { s with edit := { s.edit with isSstDelete := true } }
  s.fixed64 fun number e => { e with sstDeleteFileNumber := number }

/-- A tag that is not known. -/
def unknown (s : DecodeState) (tag : ℕ) : Step :=
  if tag / kTagSafeIgnoreMask % 2 = 1 then
    match getVarint32 s.input with
    | some (len, input) =>
        if len ≤ input.length then .ok (.ok { s with input := input.drop len })
        else corruption "safely ignoreable tag length error"
    | none => corruption "safely ignoreable tag length error"
  else corruption "unknown tag"

def addFile (f : Int32 × FileMetaData) (e : VersionEdit) : VersionEdit :=
  { e with newFiles := e.newFiles ++ [f] }

/-- The case distinction of the loop of `DecodeFrom`, behind the tag. -/
def decodeTag (s : DecodeState) : Tag → Step
  | .kDbId => s.strField "db id" fun str e => { e with dbId := some str }
  | .kComparator =>
      s.strField "comparator name" fun str e => { e with comparator := some str }
  | .kLogNumber =>
      s.field (getVarint64Of s.input) "log number" fun n e => { e with logNumber := some n }
  | .kPrevLogNumber =>
      s.field (getVarint64Of s.input) "previous log number"
        fun n e => { e with prevLogNumber := some n }
  | .kNextFileNumber =>
      s.field (getVarint64Of s.input) "next file number"
        fun n e => { e with nextFileNumber := some n }
  | .kMaxColumnFamily =>
      s.field (getVarint32Of s.input) "max column family"
        fun n e => { e with maxColumnFamily := some n }
  | .kMinLogNumberToKeep =>
      s.field (getVarint64Of s.input) "min log number to kee"
        fun n e => { e with minLogNumberToKeep := some n }
  | .kLastSequence =>
      s.field (getVarint64Of s.input) "last sequence number"
        fun n e => { e with lastSequence := some n }
  | .kCompactPointer =>
      s.field (do
        let (_, input) ← getLevel s.input
        getInternalKey input) "compaction pointer" fun _ e => e
  | .kDeletedFile =>
      s.field (do
        let (level, input) ← getLevel s.input
        let (number, input) ← getVarint64Of input
        some ((level, number), input)) "deleted file"
        fun d e => { e with deletedFiles := e.deletedFiles.insert d }
  | .kNewFile => s.field (decodeNewFile false false s.input) "new-file entry" addFile
  | .kNewFile2 => s.field (decodeNewFile false true s.input) "new-file2 entry" addFile
  | .kNewFile3 => s.field (decodeNewFile true true s.input) "new-file3 entry" addFile
  | .kNewFile4 =>
      s.record (decodeNewFile4From s.input) "VersionEdit: " fun r e =>
        addFile r.1 { e with minLogNumberToKeep := r.2.orElse fun _ => e.minLogNumberToKeep }
  | .kBlobFileAddition =>
      s.record (BlobFileAddition.decodeFrom s.input) ""
        fun a e => { e with blobFileAdditions := e.blobFileAdditions ++ [a] }
  | .kBlobFileGarbage =>
      s.record (BlobFileGarbage.decodeFrom s.input) ""
        fun g e => { e with blobFileGarbages := e.blobFileGarbages ++ [g] }
  | .kWalAddition =>
      s.record (WalAddition.decodeFrom s.input) ""
        fun w e => { e with walAdditions := e.walAdditions ++ [w] }
  | .kWalDeletion =>
      s.record (Decoded.after "WalDeletion: Error decoding WAL log number"
        (getVarint64Of s.input) fun n input => .ok (.ok (n, input))) ""
        fun n e => { e with walDeletion := n }
  | .kColumnFamily =>
      s.field (getVarint32Of s.input) "set column family id" fun n e => { e with columnFamily := n }
  | .kColumnFamilyAdd =>
      s.strField "column family add" fun str e => { e with columnFamilyAdd := some str }
  | .kColumnFamilyDrop =>
      .ok (.ok { s with edit := { s.edit with isColumnFamilyDrop := true } })
  | .kInAtomicGroup =>
      s.field (getVarint32Of s.input) "remaining entries" fun n e => { e with atomicGroup := some n }
  | .kLogkeyAndHash => s.logkeyAndHash.map .ok
  | .kSSTAdd => s.sstAdd.map .ok
  | .kSSTDelete => .ok (.ok s.sstDelete)

/-- The body of the loop of `DecodeFrom`, behind a tag. -/
def decodeField (s : DecodeState) (tag : ℕ) : Step :=
  match Tag.ofCode? tag with
  | some t => s.decodeTag t
  | none => s.unknown tag

theorem decodeField_code (s : DecodeState) (t : Tag) : s.decodeField t.code = s.decodeTag t := by
  rw [decodeField, Tag.ofCode?_code]

/-- The loop of `DecodeFrom`, for at most `fuel` fields. Input that is left when no tag can be
read is an error. -/
def decodeLoop : ℕ → DecodeState → Outcome (Except String VersionEdit)
  | 0, _ => .error .diverged
  | fuel + 1, s =>
      match getVarint32 s.input with
      | none => if s.input = [] then .ok (.ok s.edit)
          else .ok (.error "VersionEdit: invalid tag")
      | some (tag, input) =>
          match decodeField { s with input := input } tag with
          | .ok (.ok s) => decodeLoop fuel s
          | .ok (.error msg) => .ok (.error msg)
          | .error e => .error e

end DecodeState

/-- `DecodeFrom`, on an object that may have been used before. -/
def decodeFrom (e : VersionEdit) (src : Bytes) : Outcome (Except String VersionEdit) :=
  DecodeState.decodeLoop (src.length + 1) ⟨e.clear, src, .empty⟩

end VersionEdit

end Tweezer
