import Mathlib.Data.List.Induction
import Tweezer.BlockTable
import Tweezer.PlainBlock

/-!
# The layout of a block of the original format

Where the entries of a built block lie, what stands there, and that its restart points lead
to entries that share nothing with their predecessors.
-/

namespace Tweezer

/-- One of several strings of the same length, in their concatenation. -/
theorem Bytes.slice_flatMap {α : Type} {f : α → Bytes} {w : ℕ} (hf : ∀ x, (f x).length = w)
    {xs : List α} {m : ℕ} {x : α} (h : xs[m]? = some x) (rest : Bytes) :
    Bytes.slice (xs.flatMap f ++ rest) (m * w) w = f x := by
  induction xs generalizing m with
  | nil => cases h
  | cons y xs ih =>
      rw [List.flatMap_cons, List.append_assoc]
      cases m with
      | zero =>
          obtain rfl : y = x := Option.some.inj h
          rw [Nat.zero_mul, Bytes.slice_zero_append (hf y)]
      | succ m =>
          have hw : m * w + w - (f y).length = m * w := by rw [hf]; omega
          rw [Nat.succ_mul, Bytes.slice_append_right _ _ _ _ (by rw [hf]; omega), hw]
          exact ih h

/-- `DecodeEntry` inside a block reads what `DecodeEntryV2` reads of the rest of its entries. -/
theorem decodeEntry_eq (pre post : Bytes) {mid rest : Bytes} {a b c : ℕ}
    (h : decodeEntryV2 mid = .ok (a, b, c, rest)) :
    decodeEntry (pre ++ (mid ++ post)) pre.length (pre.length + mid.length) =
      .ok (some (a, b, c, pre.length + mid.length - rest.length)) := by
  obtain ⟨head, hhead, hcont⟩ := Outcome.bind_eq_ok.mp h
  obtain ⟨hlen, hslice⟩ := Bytes.fetch_eq_ok hhead
  have hfetch : (pre ++ (mid ++ post)).fetch pre.length 3 = .ok head := by
    rw [Bytes.fetch_of_le (by simp only [List.length_append]; omega),
      Bytes.slice_append_right _ _ _ _ le_rfl, Nat.sub_self,
      Bytes.slice_append_left _ _ _ _ hlen, hslice]
  have hmid : Bytes.slice (pre ++ (mid ++ post)) pre.length
      (pre.length + mid.length - pre.length) = mid := by
    rw [Nat.add_sub_cancel_left]
    exact Bytes.slice_eq_of_append rfl rfl
  rw [decodeEntry, hfetch, Outcome.ok_bind]
  match head, hcont with
  | [x, y, z], hcont =>
      dsimp only at hcont ⊢
      split_ifs at hcont ⊢ with hfast
      · cases hcont
        rw [List.length_drop]
        congr 5
        omega
      · rw [hmid]
        cases h₁ : Bytes.varintDecode 5 mid with
        | none => simp [h₁] at hcont
        | some r₁ =>
            obtain ⟨a', p₁⟩ := r₁
            simp only [h₁] at hcont
            dsimp only
            cases h₂ : Bytes.varintDecode 5 p₁ with
            | none => simp [h₂] at hcont
            | some r₂ =>
                obtain ⟨b', p₂⟩ := r₂
                simp only [h₂] at hcont
                dsimp only
                cases h₃ : Bytes.varintDecode 5 p₂ with
                | none => simp [h₃] at hcont
                | some r₃ =>
                    obtain ⟨c', p₃⟩ := r₃
                    simp only [h₃] at hcont
                    cases hcont
                    rfl

/-- An entry to add, its value in both forms. -/
structure PlainEntry where
  key : Bytes
  value : Bytes
  deltaValue : Bytes
  deriving DecidableEq

namespace PlainBlockBuilder

def addEntry (b : PlainBlockBuilder) (e : PlainEntry) : PlainBlockBuilder :=
  b.add e.key e.value e.deltaValue

def addAll (b : PlainBlockBuilder) (es : List PlainEntry) : PlainBlockBuilder :=
  es.foldl addEntry b

/-- The length of the prefix that `Add` leaves out. -/
def shared (b : PlainBlockBuilder) (key : Bytes) : ℕ :=
  if !decide (b.blockRestartInterval ≤ b.counter) && b.useDeltaEncoding then
    Bytes.commonPrefix key b.lastKey
  else 0

/-- The form of the value that goes into the block. -/
def valueBytes (b : PlainBlockBuilder) (e : PlainEntry) : Bytes :=
  if b.shared e.key ≠ 0 ∧ b.useValueDeltaEncoding then e.deltaValue else e.value

/-- What `Add` puts in front of the rest of the key. -/
def header (b : PlainBlockBuilder) (e : PlainEntry) : Bytes :=
  putVarint32 (b.shared e.key) ++ (putVarint32 (e.key.length - b.shared e.key) ++
    if b.useValueDeltaEncoding then [] else putVarint32 e.value.length)

theorem buffer_addEntry (b : PlainBlockBuilder) (e : PlainEntry) :
    (b.addEntry e).buffer =
      b.buffer ++ (b.header e ++ (e.key.drop (b.shared e.key) ++ b.valueBytes e)) := by
  change b.buffer ++ b.entry (b.shared e.key) e.key e.value e.deltaValue = _
  simp only [entry, header, valueBytes, List.append_assoc]

theorem shared_le (b : PlainBlockBuilder) (key : Bytes) : b.shared key ≤ key.length := by
  unfold shared
  split_ifs
  · exact Bytes.commonPrefix_le_left _ _
  · exact Nat.zero_le _

theorem shared_le_lastKey (b : PlainBlockBuilder) (key : Bytes) :
    b.shared key ≤ b.lastKey.length := by
  unfold shared
  split_ifs
  · exact Bytes.commonPrefix_le_right _ _
  · exact Nat.zero_le _

theorem take_shared (b : PlainBlockBuilder) (key : Bytes) :
    b.lastKey.take (b.shared key) = key.take (b.shared key) := by
  unfold shared
  split_ifs
  · exact (Bytes.take_commonPrefix key b.lastKey).symm
  · rfl

theorem shared_of_full {b : PlainBlockBuilder} (h : b.blockRestartInterval ≤ b.counter)
    (key : Bytes) : b.shared key = 0 := by
  simp [shared, h]

theorem exists_buffer_addAll (b : PlainBlockBuilder) (es : List PlainEntry) :
    ∃ tail, (b.addAll es).buffer = b.buffer ++ tail := by
  induction es generalizing b with
  | nil => exact ⟨[], (List.append_nil _).symm⟩
  | cons e es ih =>
      obtain ⟨tail, htail⟩ := ih (b.addEntry e)
      rw [buffer_addEntry, List.append_assoc] at htail
      exact ⟨_, htail⟩

/-- The builder as the entry with this index is about to be added. -/
def before (interval : ℕ) (valueDelta : Bool) (es : List PlainEntry) (i : ℕ) :
    PlainBlockBuilder :=
  (create interval true valueDelta).addAll (es.take i)

/-- The builder after all entries. -/
def built (interval : ℕ) (valueDelta : Bool) (es : List PlainEntry) : PlainBlockBuilder :=
  (create interval true valueDelta).addAll es

section Layout

variable {interval : ℕ} {valueDelta : Bool} {es : List PlainEntry} {i : ℕ} {e : PlainEntry}

theorem before_length : before interval valueDelta es es.length = built interval valueDelta es := by
  rw [before, List.take_length, built]

theorem before_succ (h : es[i]? = some e) :
    before interval valueDelta es (i + 1) = (before interval valueDelta es i).addEntry e := by
  rw [before, List.take_add_one, h, addAll, List.foldl_append]
  rfl

theorem before_append (h : i ≤ es.length) :
    before interval valueDelta (es ++ [e]) i = before interval valueDelta es i := by
  rw [before, List.take_append_of_le_length h, before]

theorem built_append :
    built interval valueDelta (es ++ [e]) = (built interval valueDelta es).addEntry e := by
  rw [built, addAll, List.foldl_append]
  rfl

theorem addAll_settings (b : PlainBlockBuilder) (es : List PlainEntry) :
    (b.addAll es).useDeltaEncoding = b.useDeltaEncoding ∧
      (b.addAll es).useValueDeltaEncoding = b.useValueDeltaEncoding ∧
      (b.addAll es).blockRestartInterval = b.blockRestartInterval := by
  induction es generalizing b with
  | nil => exact ⟨rfl, rfl, rfl⟩
  | cons e es ih => exact ih (b.addEntry e)

theorem useDeltaEncoding_before : (before interval valueDelta es i).useDeltaEncoding = true :=
  (addAll_settings _ _).1

theorem useValueDeltaEncoding_before :
    (before interval valueDelta es i).useValueDeltaEncoding = valueDelta := (addAll_settings _ _).2.1

theorem lastKey_before_succ (h : es[i]? = some e) :
    (before interval valueDelta es (i + 1)).lastKey = e.key := by
  rw [before_succ h]
  simp only [addEntry, add, useDeltaEncoding_before, if_true]

theorem shared_before_zero (key : Bytes) : (before interval valueDelta es 0).shared key = 0 := by
  have h := shared_le_lastKey (before interval valueDelta es 0) key
  have hlast : (before interval valueDelta es 0).lastKey = [] := by
    rw [before, List.take_zero]
    rfl
  rw [hlast, List.length_nil] at h
  omega

/-- The offset of the entry with this index. -/
def offset (interval : ℕ) (valueDelta : Bool) (es : List PlainEntry) (i : ℕ) : ℕ :=
  (before interval valueDelta es i).buffer.length

theorem offset_zero : offset interval valueDelta es 0 = 0 := by
  rw [offset, before, List.take_zero]
  rfl

theorem offset_length :
    offset interval valueDelta es es.length = (built interval valueDelta es).buffer.length := by
  rw [offset, before_length]

theorem length_header_pos (b : PlainBlockBuilder) (e : PlainEntry) : 2 ≤ (b.header e).length := by
  have h1 := Bytes.length_varintEncode_pos 4 (u32 (b.shared e.key))
  have h2 := Bytes.length_varintEncode_pos 4 (u32 (e.key.length - b.shared e.key))
  simp only [header, List.length_append, putVarint32]
  omega

variable (interval valueDelta)

theorem offset_succ (h : es[i]? = some e) :
    offset interval valueDelta es (i + 1) = offset interval valueDelta es i +
      ((before interval valueDelta es i).header e).length +
      (e.key.length - (before interval valueDelta es i).shared e.key) +
      ((before interval valueDelta es i).valueBytes e).length := by
  rw [offset, before_succ h, buffer_addEntry, offset]
  simp only [List.length_append, List.length_drop]
  omega

/-- The buffer of the finished block, cut at an entry. -/
theorem buffer_built (h : es[i]? = some e) : ∃ tail,
    (built interval valueDelta es).buffer = (before interval valueDelta es i).buffer ++
      ((before interval valueDelta es i).header e ++
        (e.key.drop ((before interval valueDelta es i).shared e.key) ++
          ((before interval valueDelta es i).valueBytes e ++ tail))) := by
  have hsplit : built interval valueDelta es =
      (before interval valueDelta es (i + 1)).addAll (es.drop (i + 1)) := by
    rw [before, built, addAll, addAll, addAll, ← List.foldl_append, List.take_append_drop]
  obtain ⟨tail, htail⟩ := exists_buffer_addAll (before interval valueDelta es (i + 1))
    (es.drop (i + 1))
  refine ⟨tail, ?_⟩
  rw [hsplit, htail, before_succ h, buffer_addEntry]
  simp only [List.append_assoc]

theorem offset_lt_succ (h : i < es.length) :
    offset interval valueDelta es i < offset interval valueDelta es (i + 1) := by
  have hsucc := offset_succ interval valueDelta
    (List.getElem?_eq_getElem h)
  have hpos := length_header_pos (before interval valueDelta es i) es[i]
  omega

theorem offset_lt {j : ℕ} (hij : i < j) (hj : j ≤ es.length) :
    offset interval valueDelta es i < offset interval valueDelta es j := by
  induction j with
  | zero => omega
  | succ j ih =>
      have hstep := offset_lt_succ interval valueDelta
        (show j < es.length by omega)
      rcases Nat.lt_or_ge i j with hlt | hge
      · exact lt_trans (ih hlt (by omega)) hstep
      · obtain rfl : i = j := by omega
        exact hstep

theorem offset_le_buffer (h : i ≤ es.length) :
    offset interval valueDelta es i ≤ (built interval valueDelta es).buffer.length := by
  rw [← offset_length]
  rcases Nat.lt_or_ge i es.length with hlt | hge
  · exact le_of_lt (offset_lt interval valueDelta hlt le_rfl)
  · obtain rfl : i = es.length := by omega
    exact le_rfl

theorem offset_inj {j : ℕ} (hi : i ≤ es.length) (hj : j ≤ es.length)
    (h : offset interval valueDelta es i = offset interval valueDelta es j) : i = j := by
  rcases Nat.lt_trichotomy i j with hlt | heq | hgt
  · have := offset_lt interval valueDelta hlt hj
    omega
  · exact heq
  · have := offset_lt interval valueDelta hgt hi
    omega

variable {interval valueDelta}

/-- A restart point leads to an entry that is stored in full. -/
def RestartsAt (interval : ℕ) (valueDelta : Bool) (es : List PlainEntry) (m p i : ℕ) : Prop :=
  ∃ e, es[i]? = some e ∧ p = u32 (offset interval valueDelta es i) ∧
    (before interval valueDelta es i).shared e.key = 0 ∧ (i = 0 ↔ m = 0)

theorem RestartsAt.append {m p : ℕ} (h : RestartsAt interval valueDelta es m p i) :
    RestartsAt interval valueDelta (es ++ [e]) m p i := by
  obtain ⟨e', he', hp, hshared, hzero⟩ := h
  obtain ⟨hi, -⟩ := List.getElem?_eq_some_iff.mp he'
  rw [← before_append (e := e) (le_of_lt hi)] at hshared
  rw [offset, ← before_append (e := e) (le_of_lt hi)] at hp
  exact ⟨e', by rw [List.getElem?_append_left hi, he'], hp, hshared, hzero⟩

theorem restarts_addEntry (b : PlainBlockBuilder) (e : PlainEntry) :
    (b.addEntry e).restarts =
      if b.blockRestartInterval ≤ b.counter then b.restarts ++ [u32 b.buffer.length]
      else b.restarts := by
  simp only [addEntry, add, decide_eq_true_eq]

theorem restarts_ne_nil (b : PlainBlockBuilder) (es : List PlainEntry) (h : b.restarts ≠ []) :
    (b.addAll es).restarts ≠ [] := by
  induction es generalizing b with
  | nil => exact h
  | cons e es ih =>
      apply ih
      rw [restarts_addEntry]
      split_ifs
      · exact List.append_ne_nil_of_left_ne_nil h _
      · exact h

theorem length_restarts_addAll_le (b : PlainBlockBuilder) (es : List PlainEntry) :
    (b.addAll es).restarts.length ≤ b.restarts.length + es.length := by
  induction es generalizing b with
  | nil => exact le_rfl
  | cons e es ih =>
      have hrest := ih (b.addEntry e)
      have hone : (b.addEntry e).restarts.length ≤ b.restarts.length + 1 := by
        rw [restarts_addEntry]
        split_ifs
        · rw [List.length_append, List.length_singleton]
        · exact Nat.le_succ _
      have hsplit : b.addAll (e :: es) = (b.addEntry e).addAll es := rfl
      rw [hsplit, List.length_cons]
      omega

theorem restartsAt_of_getElem? (hinterval : 0 < interval) (hne : es ≠ []) {m p : ℕ}
    (h : (built interval valueDelta es).restarts[m]? = some p) :
    ∃ i, RestartsAt interval valueDelta es m p i := by
  induction es using List.reverseRecOn with
  | nil => exact absurd rfl hne
  | append_singleton es e ih =>
      have hlast : (es ++ [e])[es.length]? = some e := by simp
      rw [built_append, restarts_addEntry] at h
      rcases List.eq_nil_or_concat es with rfl | ⟨es', e', hes⟩
      · -- the first entry has the restart point that a new builder starts with
        have hcounter : ¬ (built interval valueDelta []).blockRestartInterval ≤
            (built interval valueDelta []).counter := Nat.not_le.mpr hinterval
        rw [if_neg hcounter] at h
        obtain ⟨hm, hp⟩ := List.getElem?_eq_some_iff.mp h
        obtain rfl : m = 0 := Nat.lt_one_iff.mp hm
        exact ⟨0, e, hlast, hp.symm.trans (by rw [offset_zero]; rfl), shared_before_zero _,
          iff_of_true rfl rfl⟩
      · have hes' : es ≠ [] := by simp [hes]
        have hold : (built interval valueDelta es).restarts[m]? = some p →
            ∃ i, RestartsAt interval valueDelta (es ++ [e]) m p i := by
          intro hm
          obtain ⟨i, hi⟩ := ih hes' hm
          exact ⟨i, hi.append⟩
        split_ifs at h with hfull
        · rcases Nat.lt_or_ge m (built interval valueDelta es).restarts.length with hlt | hge
          · rw [List.getElem?_append_left hlt] at h
            exact hold h
          · rw [List.getElem?_append_right hge, List.getElem?_singleton] at h
            split_ifs at h with hm
            have hpos : 0 < (built interval valueDelta es).restarts.length :=
              List.length_pos_of_ne_nil (restarts_ne_nil _ _ (List.cons_ne_nil _ _))
            have hbefore : before interval valueDelta (es ++ [e]) es.length =
                built interval valueDelta es := by rw [before_append le_rfl, before_length]
            refine ⟨es.length, e, hlast, ?_, ?_, ?_⟩
            · rw [offset, hbefore]
              exact (Option.some.inj h).symm
            · rw [hbefore]
              exact shared_of_full hfull _
            · have hlen := List.length_pos_of_ne_nil hes'
              exact iff_of_false (by omega) (by omega)
        · exact hold h

theorem fetch_restart (b : PlainBlockBuilder) {m p : ℕ} (h : b.restarts[m]? = some p) :
    b.finish.fetch (b.buffer.length + m * 4) 4 = .ok (Bytes.leEncode 4 p) := by
  obtain ⟨hm, -⟩ := List.getElem?_eq_some_iff.mp h
  have hlen : (b.restarts.flatMap (Bytes.leEncode 4)).length = b.restarts.length * 4 := by
    simp [List.length_flatMap]
  rw [finish, Bytes.fetch_of_le
      (by simp only [List.length_append, hlen, Bytes.length_leEncode]; omega),
    Bytes.slice_append_right _ _ _ _ (by omega), Nat.add_sub_cancel_left]
  exact congrArg _ (Bytes.slice_flatMap (Bytes.length_leEncode 4) h _)

variable (interval valueDelta)

theorem length_lastKey_le (hi : i ≤ es.length) :
    (before interval valueDelta es i).lastKey.length ≤ offset interval valueDelta es i := by
  induction i with
  | zero => simp [before, create, addAll]
  | succ i ih =>
      have he := List.getElem?_eq_getElem (show i < es.length by omega)
      have hprev := ih (by omega)
      have hshared := shared_le_lastKey (before interval valueDelta es i) es[i].key
      have hnext := offset_succ interval valueDelta he
      rw [lastKey_before_succ he]
      omega

/-- The offset of the part of the key that is stored. -/
def keyOffset (es : List PlainEntry) (i : ℕ) (e : PlainEntry) : ℕ :=
  offset interval valueDelta es i + ((before interval valueDelta es i).header e).length

def valueOffset (es : List PlainEntry) (i : ℕ) (e : PlainEntry) : ℕ :=
  keyOffset interval valueDelta es i e +
    (e.key.length - (before interval valueDelta es i).shared e.key)

theorem offset_succ_eq (h : es[i]? = some e) :
    offset interval valueDelta es (i + 1) = valueOffset interval valueDelta es i e +
      ((before interval valueDelta es i).valueBytes e).length :=
  offset_succ interval valueDelta h

theorem valueOffset_le (h : es[i]? = some e) :
    valueOffset interval valueDelta es i e ≤ (built interval valueDelta es).buffer.length := by
  obtain ⟨hi, -⟩ := List.getElem?_eq_some_iff.mp h
  have hnext := offset_succ_eq interval valueDelta h
  have hle := offset_le_buffer interval valueDelta (show i + 1 ≤ es.length by omega)
  omega

/-- The finished block, cut at an entry. -/
theorem finish_built (h : es[i]? = some e) : ∃ tail post,
    (built interval valueDelta es).finish = (before interval valueDelta es i).buffer ++
        ((before interval valueDelta es i).header e ++
          (e.key.drop ((before interval valueDelta es i).shared e.key) ++
            ((before interval valueDelta es i).valueBytes e ++ (tail ++ post)))) ∧
      (built interval valueDelta es).buffer.length = valueOffset interval valueDelta es i e +
        (((before interval valueDelta es i).valueBytes e).length + tail.length) := by
  obtain ⟨tail, htail⟩ := buffer_built interval valueDelta h
  refine ⟨tail, (built interval valueDelta es).restarts.flatMap (Bytes.leEncode 4) ++
    Bytes.leEncode 4 (built interval valueDelta es).restarts.length, ?_, ?_⟩
  · rw [finish, htail]
    simp only [List.append_assoc]
  · rw [htail, valueOffset, keyOffset, offset]
    simp only [List.length_append, List.length_drop]
    omega

theorem fetch_key (h : es[i]? = some e) :
    (built interval valueDelta es).finish.fetch (keyOffset interval valueDelta es i e)
        (e.key.length - (before interval valueDelta es i).shared e.key) =
      .ok (e.key.drop ((before interval valueDelta es i).shared e.key)) := by
  obtain ⟨tail, post, hfinish, -⟩ := finish_built interval valueDelta h
  have hlen : keyOffset interval valueDelta es i e =
      ((before interval valueDelta es i).buffer ++
        (before interval valueDelta es i).header e).length := by
    rw [List.length_append, keyOffset, offset]
  rw [hfinish, ← List.append_assoc, Bytes.fetch_of_le
    (by simp only [hlen, List.length_append, List.length_drop]; omega),
    Bytes.slice_eq_of_append hlen.symm List.length_drop]

/-- The finished block, cut at the value of an entry. -/
theorem finish_value (h : es[i]? = some e) : ∃ front tail post,
    (built interval valueDelta es).finish =
        front ++ (((before interval valueDelta es i).valueBytes e ++ tail) ++ post) ∧
      front.length = valueOffset interval valueDelta es i e ∧
      (built interval valueDelta es).buffer.length = front.length +
        ((before interval valueDelta es i).valueBytes e ++ tail).length := by
  obtain ⟨tail, post, hfinish, hlength⟩ := finish_built interval valueDelta h
  have hfront : ((before interval valueDelta es i).buffer ++
      ((before interval valueDelta es i).header e ++
        e.key.drop ((before interval valueDelta es i).shared e.key))).length =
      valueOffset interval valueDelta es i e := by
    rw [valueOffset, keyOffset, offset]
    simp only [List.length_append, List.length_drop]
    omega
  refine ⟨_, tail, post, ?_, hfront, ?_⟩
  · rw [hfinish]
    simp only [List.append_assoc]
  · rw [hlength, hfront, List.length_append]

/-- The value, and whatever follows it before the restart points. -/
theorem slice_value (h : es[i]? = some e) : ∃ tail,
    (built interval valueDelta es).finish.slice (valueOffset interval valueDelta es i e)
        ((built interval valueDelta es).buffer.length - valueOffset interval valueDelta es i e) =
      (before interval valueDelta es i).valueBytes e ++ tail := by
  obtain ⟨front, tail, post, hfinish, hfront, hlength⟩ := finish_value interval valueDelta h
  refine ⟨tail, ?_⟩
  rw [hlength, ← hfront, Nat.add_sub_cancel_left, hfinish]
  exact Bytes.slice_eq_of_append rfl rfl

theorem fetch_value (h : es[i]? = some e) :
    (built interval valueDelta es).finish.fetch (valueOffset interval valueDelta es i e)
        ((before interval valueDelta es i).valueBytes e).length =
      .ok ((before interval valueDelta es i).valueBytes e) := by
  obtain ⟨front, tail, post, hfinish, hfront, -⟩ := finish_value interval valueDelta h
  rw [hfinish, List.append_assoc, ← hfront,
    Bytes.fetch_of_le (by simp only [List.length_append]; omega),
    Bytes.slice_eq_of_append rfl rfl]

theorem shared_lt (h : es[i]? = some e)
    (hsize : (built interval valueDelta es).buffer.length < 2 ^ 32) :
    (before interval valueDelta es i).shared e.key < 2 ^ 32 ∧
      e.key.length - (before interval valueDelta es i).shared e.key < 2 ^ 32 := by
  obtain ⟨hi, -⟩ := List.getElem?_eq_some_iff.mp h
  have hlast := length_lastKey_le interval valueDelta (le_of_lt hi)
  have hshared := shared_le_lastKey (before interval valueDelta es i) e.key
  have hle := offset_le_buffer interval valueDelta (le_of_lt hi)
  have hvalue := valueOffset_le interval valueDelta h
  rw [valueOffset] at hvalue
  exact ⟨by omega, by omega⟩

/-- What `DecodeEntry` reads of an entry with a plain value. -/
theorem decodeEntry_at (h : es[i]? = some e) (hvalue : e.value.length < 2 ^ 32)
    (hsize : (built interval false es).buffer.length < 2 ^ 32) :
    decodeEntry (built interval false es).finish (offset interval false es i)
        (built interval false es).buffer.length =
      .ok (some ((before interval false es i).shared e.key,
        e.key.length - (before interval false es i).shared e.key, e.value.length,
        keyOffset interval false es i e)) := by
  obtain ⟨tail, post, hfinish, hlength⟩ := finish_built interval false h
  obtain ⟨hshared, hrest⟩ := shared_lt interval false h hsize
  have hdecoded := decodeEntryV2_putVarint32 hshared hrest hvalue
    (e.key.drop ((before interval false es i).shared e.key) ++
      ((before interval false es i).valueBytes e ++ tail))
  have hheader : (before interval false es i).header e =
      putVarint32 ((before interval false es i).shared e.key) ++
        (putVarint32 (e.key.length - (before interval false es i).shared e.key) ++
          putVarint32 e.value.length) := by
    rw [header, useValueDeltaEncoding_before]
    rfl
  have hread := decodeEntry_eq (before interval false es i).buffer post hdecoded
  have hend : (built interval false es).buffer.length =
      (before interval false es i).buffer.length +
        (putVarint32 ((before interval false es i).shared e.key) ++
          (putVarint32 (e.key.length - (before interval false es i).shared e.key) ++
            (putVarint32 e.value.length ++
              (e.key.drop ((before interval false es i).shared e.key) ++
                ((before interval false es i).valueBytes e ++ tail))))).length := by
    rw [hlength, valueOffset, keyOffset, offset, hheader]
    simp only [List.length_append, List.length_drop]
    omega
  rw [hend, hfinish, offset, hheader]
  simp only [List.append_assoc] at hread ⊢
  rw [hread, keyOffset, offset, hheader]
  simp only [List.length_append, List.length_drop, Except.ok.injEq, Option.some.injEq,
    Prod.mk.injEq, true_and]
  omega

end Layout

end PlainBlockBuilder

end Tweezer
