import Tweezer.Outcome

/-!
# The prefetch buffer of a file

`file/file_prefetch_buffer.{h,cc}` over a reader of a file. The buffer outlives the reads it
serves: they get pointers into it. A window that overlaps the one before keeps the bytes that
both cover, and only the rest is read from the file.
-/

namespace Tweezer

/-- `kMaxAutoReadaheadSize`. -/
def kMaxAutoReadaheadSize : ℕ := 256 * 1024

/-- `Rounddown`. -/
def roundDown (x y : ℕ) : ℕ := x / y * y

/-- `Roundup`. -/
def roundUp (x y : ℕ) : ℕ := (x + y - 1) / y * y

/-- A `RandomAccessFileReader`: what its file holds, how it is read, and what stands in memory
that nothing was read into. -/
structure FileReader where
  file : Bytes
  requiredBufferAlignment : ℕ
  useDirectIo : Bool
  allowMmapReads : Bool
  unfilled : (n : ℕ) → Octets n

namespace FileReader

/-- A read of a mapped file gives a pointer into the map and leaves the buffer alone. -/
def mapped (r : FileReader) : Bool := r.allowMmapReads && !r.useDirectIo

/-- What a read leaves in the buffer that it is given. -/
def readInto (r : FileReader) (offset n : ℕ) : Bytes :=
  let result := r.file.slice offset n
  if r.mapped then (r.unfilled result.length).val else result

end FileReader

structure FilePrefetchBuffer where
  buffer : Bytes
  bufferOffset : ℕ
  readaheadSize : ℕ
  maxReadaheadSize : ℕ
  enable : Bool
  deriving DecidableEq

namespace FilePrefetchBuffer

/-- The constructor. -/
def create (readaheadSize maxReadaheadSize : ℕ) (enable : Bool) : FilePrefetchBuffer :=
  ⟨[], 0, readaheadSize, maxReadaheadSize, enable⟩

variable (r : FileReader) (p : FilePrefetchBuffer)

/-- The first requested byte lies in the buffer, or right behind it. -/
def overlaps (offset : ℕ) : Bool :=
  0 < p.buffer.length ∧ p.bufferOffset ≤ offset ∧ offset ≤ p.bufferOffset + p.buffer.length

/-- The bytes that the next window takes over. -/
def chunk (offset : ℕ) : Bytes :=
  if p.overlaps offset then
    p.buffer.drop (roundDown (offset - p.bufferOffset) r.requiredBufferAlignment)
  else []

def prefetch (offset n : ℕ) : FilePrefetchBuffer :=
  let alignment := r.requiredBufferAlignment
  let start := roundDown offset alignment
  let length := roundUp (offset + n) alignment - start
  let chunk := p.chunk r offset
  if p.enable = false then p
  else if p.overlaps offset ∧ offset + n ≤ p.bufferOffset + p.buffer.length then p
  else
    { p with
      buffer := chunk ++ r.readInto (start + chunk.length) (length - chunk.length)
      bufferOffset := start }

/-- The `n` bytes that a pointer into the buffer leads to. -/
def bytesAt (offset n : ℕ) : Bytes :=
  (p.buffer.slice (offset - p.bufferOffset) n ++ (r.unfilled n).val).take n

def tryReadFromCache (offset n : ℕ) : Option Bytes × FilePrefetchBuffer :=
  if p.enable = false ∨ offset < p.bufferOffset then (none, p)
  else if p.bufferOffset + p.buffer.length < offset + n then
    if 0 < p.readaheadSize then
      let p := p.prefetch r offset (n + p.readaheadSize)
      let p := { p with readaheadSize := min p.maxReadaheadSize (p.readaheadSize * 2) }
      (some (p.bytesAt r offset n), p)
    else (none, p)
  else (some (p.bytesAt r offset n), p)

/-- A write through such a pointer. -/
def overwrite (offset : ℕ) (bytes : Bytes) : FilePrefetchBuffer :=
  let i := offset - p.bufferOffset
  { p with
    buffer := (p.buffer.take i ++ (bytes ++ p.buffer.drop (i + bytes.length))).take
      p.buffer.length }

/-- What the buffer holds of these bytes of the file is what the file holds. -/
def Clean (offset n : ℕ) : Prop :=
  ∀ i, i < p.buffer.length → offset ≤ p.bufferOffset + i → p.bufferOffset + i < offset + n →
    p.buffer[i]? = r.file[p.bufferOffset + i]?

instance (r : FileReader) (p : FilePrefetchBuffer) (offset n : ℕ) :
    Decidable (p.Clean r offset n) :=
  inferInstanceAs (Decidable (∀ i, i < _ → _))

/-- The buffer starts at a place where reads of the file may start. -/
def Aligned : Prop := r.requiredBufferAlignment ∣ p.bufferOffset

variable {r p} {offset n : ℕ}

theorem aligned_create (readaheadSize maxReadaheadSize : ℕ) (enable : Bool) :
    (create readaheadSize maxReadaheadSize enable).Aligned r :=
  Dvd.intro 0 rfl

theorem roundDown_dvd (x y : ℕ) : y ∣ roundDown x y := Dvd.intro_left (x / y) rfl

theorem roundDown_le (x y : ℕ) : roundDown x y ≤ x := Nat.div_mul_le_self x y

theorem le_roundUp {y : ℕ} (hy : 0 < y) (x : ℕ) : x ≤ roundUp x y := by
  have h := Nat.div_add_mod (x + y - 1) y
  have hmod := Nat.mod_lt (x + y - 1) hy
  rw [roundUp, Nat.mul_comm]
  omega

/-- The window starts where what it takes over did. -/
theorem roundDown_add {x y a : ℕ} (hy : 0 < y) (hdvd : y ∣ a) (h : a ≤ x) :
    roundDown x y = a + roundDown (x - a) y := by
  obtain ⟨k, rfl⟩ := hdvd
  obtain ⟨d, rfl⟩ := Nat.exists_eq_add_of_le h
  rw [Nat.add_sub_cancel_left, roundDown, roundDown, Nat.mul_add_div hy, Nat.add_mul,
    Nat.mul_comm k y]

theorem Aligned.prefetch (h : p.Aligned r) : (p.prefetch r offset n).Aligned r := by
  unfold FilePrefetchBuffer.prefetch
  dsimp only
  split_ifs
  · exact h
  · exact h
  · exact roundDown_dvd _ _

theorem Aligned.tryReadFromCache (h : p.Aligned r) :
    (p.tryReadFromCache r offset n).2.Aligned r := by
  have hahead : (p.prefetch r offset (n + p.readaheadSize)).Aligned r := h.prefetch
  unfold FilePrefetchBuffer.tryReadFromCache
  split_ifs
  · exact h
  · exact hahead
  · exact h
  · exact h

theorem Aligned.overwrite (h : p.Aligned r) (bytes : Bytes) :
    (p.overwrite offset bytes).Aligned r := h

/-- A pointer into the buffer leads to what the file holds there. -/
theorem bytesAt_eq (hclean : p.Clean r offset n) (hfrom : p.bufferOffset ≤ offset)
    (hto : offset + n ≤ p.bufferOffset + p.buffer.length) :
    p.bytesAt r offset n = r.file.slice offset n := by
  have hlen : (p.buffer.slice (offset - p.bufferOffset) n).length = n :=
    Bytes.length_slice (by omega)
  rw [bytesAt, List.take_left' hlen]
  apply List.ext_getElem?
  intro i
  rw [Bytes.slice, Bytes.slice, List.getElem?_take, List.getElem?_take, List.getElem?_drop,
    List.getElem?_drop]
  by_cases hi : i < n
  · rw [if_pos hi, if_pos hi, hclean _ (by omega) (by omega) (by omega)]
    congr 1
    omega
  · rw [if_neg hi, if_neg hi]

/-- After it was filled, the buffer holds the requested bytes of the file, if what it took over
of them was clean. -/
theorem clean_prefetch (halign : 0 < r.requiredBufferAlignment) (hmapped : r.mapped = false)
    (henable : p.enable = true) (h : p.Aligned r) {m : ℕ} (hclean : p.Clean r offset n)
    (hfile : offset + n ≤ r.file.length) (hm : n ≤ m) :
    (p.prefetch r offset m).Clean r offset n ∧ (p.prefetch r offset m).bufferOffset ≤ offset ∧
      offset + n ≤ (p.prefetch r offset m).bufferOffset +
        (p.prefetch r offset m).buffer.length := by
  have hstart := roundDown_le offset r.requiredBufferAlignment
  have hend := le_roundUp halign (offset + m)
  have henable' : ¬p.enable = false := by
    rw [henable]
    decide
  by_cases hheld : p.overlaps offset = true ∧ offset + m ≤ p.bufferOffset + p.buffer.length
  · have hp : p.prefetch r offset m = p := by
      rw [prefetch, if_neg henable', if_pos hheld]
    have hov := hheld.1
    rw [overlaps, decide_eq_true_iff] at hov
    rw [hp]
    exact ⟨hclean, hov.2.1, by omega⟩
  · obtain ⟨start, hs⟩ : ∃ s, s = roundDown offset r.requiredBufferAlignment := ⟨_, rfl⟩
    obtain ⟨stop, ht⟩ : ∃ s, s = roundUp (offset + m) r.requiredBufferAlignment := ⟨_, rfl⟩
    obtain ⟨chunk, hc⟩ : ∃ c, c = p.chunk r offset := ⟨_, rfl⟩
    have hp : p.prefetch r offset m =
        { p with
          buffer := chunk ++ r.file.slice (start + chunk.length) (stop - start - chunk.length)
          bufferOffset := start } := by
      rw [prefetch, if_neg henable', if_neg hheld, FileReader.readInto, hmapped, hs,
        ht, hc]
      rfl
    rw [← hs] at hstart
    rw [← ht] at hend
    -- the byte of the chunk at place `i` is the one at the same place of the file
    have hchunk : ∀ i, i < chunk.length → offset ≤ start + i → start + i < offset + n →
        chunk[i]? = r.file[start + i]? := by
      intro i hi hfrom hto
      by_cases hov : p.overlaps offset = true
      · have hoff := hov
        rw [overlaps, decide_eq_true_iff] at hoff
        have hadd := roundDown_add halign h hoff.2.1
        rw [← hs] at hadd
        rw [hc, FilePrefetchBuffer.chunk, if_pos hov, List.length_drop] at hi
        rw [hc, FilePrefetchBuffer.chunk, if_pos hov, List.getElem?_drop,
          hclean _ (by omega) (by omega) (by omega)]
        congr 1
        omega
      · rw [hc, FilePrefetchBuffer.chunk, if_neg hov] at hi
        exact absurd hi (Nat.not_lt_zero i)
    have hlen : (r.file.slice (start + chunk.length) (stop - start - chunk.length)).length =
        min (stop - start - chunk.length) (r.file.length - (start + chunk.length)) := by
      rw [Bytes.slice, List.length_take, List.length_drop]
    rw [hp]
    refine ⟨?_, hstart, ?_⟩
    · intro i hi hfrom hto
      dsimp only at hi hfrom hto ⊢
      by_cases hin : i < chunk.length
      · rw [List.getElem?_append_left hin, hchunk i hin hfrom hto]
      · rw [List.length_append, hlen] at hi
        rw [List.getElem?_append_right (by omega), Bytes.slice, List.getElem?_take,
          if_pos (by omega), List.getElem?_drop]
        congr 1
        omega
    · dsimp only
      rw [List.length_append, hlen]
      omega

/-- What the buffer serves is what the file holds. -/
theorem tryReadFromCache_eq (halign : 0 < r.requiredBufferAlignment) (hmapped : r.mapped = false)
    (h : p.Aligned r) (hclean : p.Clean r offset n) (hfile : offset + n ≤ r.file.length)
    {bytes : Bytes} (hread : (p.tryReadFromCache r offset n).1 = some bytes) :
    bytes = r.file.slice offset n := by
  unfold tryReadFromCache at hread
  split_ifs at hread with hmiss hshort hahead
  · have henable : p.enable = true := by
      rw [← Bool.not_eq_false]
      exact fun he => hmiss (Or.inl he)
    obtain ⟨hc, hfrom, hto⟩ := clean_prefetch halign hmapped henable h hclean hfile
      (Nat.le_add_right n p.readaheadSize)
    obtain rfl := Option.some.inj hread
    exact bytesAt_eq (p := { p.prefetch r offset (n + p.readaheadSize) with
      readaheadSize := min (p.prefetch r offset (n + p.readaheadSize)).maxReadaheadSize
        ((p.prefetch r offset (n + p.readaheadSize)).readaheadSize * 2) }) hc hfrom hto
  · obtain rfl := Option.some.inj hread
    exact bytesAt_eq hclean (by omega) (by omega)

end FilePrefetchBuffer

end Tweezer
