import Tweezer.IndexSeek

/-!
# The index iterator as a cursor

Whatever calls it gets, an iterator over an index block that a builder wrote shows the entry
that a cursor over the sorted keys stands at. The entries come back in order from a scan with
`SeekToFirst` and `Next`, and in reverse from one with `SeekToLast` and `Prev`. This needs the
entries to take up less than 2^32 bytes, since the restart points, the lengths in an entry and
the iterator's own offsets are 32 bits long.
-/

namespace Tweezer

/-- A call of an index iterator. It has no `SeekForPrev`. -/
inductive IndexCall where
  | seekToFirst
  | seekToLast
  | seek (target : Bytes)
  | next
  | prev
  deriving DecidableEq

namespace IndexCall

def run (u : Comparator) (it : IndexBlockIter) : IndexCall → Outcome IndexBlockIter
  | seekToFirst => it.seekToFirst
  | seekToLast => it.seekToLast
  | seek target => it.seek u target
  | next => it.next
  | prev => it.prev

def runAll (u : Comparator) : IndexBlockIter → List IndexCall → Outcome IndexBlockIter
  | it, [] => .ok it
  | it, call :: calls => do
      let it ← call.run u it
      runAll u it calls

/-- What the call asks of a cursor over the keys. -/
def op (c : IndexContents) : IndexCall → OrderedCursor.Op Bytes
  | seekToFirst => .seekToFirst
  | seekToLast => .seekToLast
  | seek target => .seek (c.seekKey target)
  | next => .next
  | prev => .prev

/-- Where the calls lead the cursor. -/
def positionAfter (u : Comparator) (c : IndexContents) : Option ℕ → List IndexCall → Option ℕ
  | pos, [] => pos
  | pos, call :: calls =>
      positionAfter u c (OrderedCursor.step (c.compare u) c.keys pos (call.op c)) calls

/-- `Next` and `Prev` are called only where the cursor has a position. -/
def AllAllowed (u : Comparator) (c : IndexContents) : Option ℕ → List IndexCall → Prop
  | _, [] => True
  | pos, call :: calls =>
      (call.op c).Allowed pos ∧
        AllAllowed u c (OrderedCursor.step (c.compare u) c.keys pos (call.op c)) calls

end IndexCall

namespace IndexBlockIter

/-- The entry that the iterator is at. -/
def shown (it : IndexBlockIter) : Outcome (Option IndexEntry) :=
  if it.valid then do
    let handle ← it.value
    .ok (some ⟨it.key, handle⟩)
  else .ok none

/-- The entries from here on, in the direction of `step`, if there are less than `fuel`. -/
def scan (step : IndexBlockIter → Outcome IndexBlockIter) :
    ℕ → IndexBlockIter → Outcome (List IndexEntry)
  | 0, _ => .error .diverged
  | fuel + 1, it => do
      let entry ← it.shown
      match entry with
      | none => .ok []
      | some e => do
          let it ← step it
          let es ← scan step fuel it
          .ok (e :: es)

variable {it it' : IndexBlockIter} {c : IndexContents} {u : Comparator} {i j : ℕ}
  {e : IndexEntry}

/-- A position, and the first key at or above a target, in terms of the entries. -/
theorem Stands.shown {pos : Option ℕ} (h : it.Stands c pos) :
    it.shown = .ok (pos.bind fun i => c.entries[i]?) := by
  rw [IndexBlockIter.shown]
  cases pos with
  | none =>
      rw [h.invalid rfl]
      rfl
  | some i =>
      obtain ⟨e, hshows⟩ := h.shows i rfl
      rw [if_pos hshows.toAt.valid, hshows.value, Outcome.ok_bind, hshows.key]
      dsimp only [Option.bind_some]
      rw [hshows.entry]

theorem Stands.of_shows (h : it.Shows c i e) (hstatus : it.status = .ok) :
    it.Stands c (some i) := by
  refine ⟨h.isOver, hstatus, ?_, fun h => nomatch h⟩
  intro j hj
  obtain rfl := Option.some.inj hj
  exact ⟨e, h⟩

theorem Stands.of_at (h : it.At c i e) (hstatus : it.status = .ok) :
    it.updateKey.Stands c (some i) :=
  .of_shows h.updateKey ((updateKey_status it).trans hstatus)

/-! ### The scan to a given offset -/

theorem offset_succ_lt_iff (hi : i < c.entries.length) (hj : j < c.entries.length) :
    c.offset (i + 1) < c.offset (j + 1) ↔ i < j := by
  rw [← c.length_encoded] at hi hj
  constructor
  · intro hlt
    by_contra hle
    rcases Nat.eq_or_lt_of_le (Nat.not_lt.mp hle) with rfl | hji
    · exact lt_irrefl _ hlt
    · have hgt := PlainBlockBuilder.offset_lt c.interval c.valueDelta
        (show j + 1 < i + 1 by omega) (show i + 1 ≤ c.encoded.length by omega)
      exact lt_asymm hlt hgt
  · intro hlt
    exact PlainBlockBuilder.offset_lt c.interval c.valueDelta (show i + 1 < j + 1 by omega)
      (show j + 1 ≤ c.encoded.length by omega)

/-- Reading on to the offset behind entry `j`, each turn one entry. -/
theorem Before.scanTo (hsize : c.builder.buffer.length < 2 ^ 32) {fuel : ℕ} {a : IndexEntry}
    (h : it.Before c i e) (hij : i ≤ j) (ha : c.entries[j]? = some a) (hfuel : j < i + fuel) :
    ∃ it', it.scanTo c.block (c.offset (j + 1)) fuel = .ok it' ∧ it'.At c j a ∧
      it'.status = it.status := by
  induction fuel generalizing it i e with
  | zero => omega
  | succ fuel ih =>
      obtain ⟨hi, -⟩ := List.getElem?_eq_some_iff.mp h.entry
      obtain ⟨hj, -⟩ := List.getElem?_eq_some_iff.mp ha
      obtain ⟨it₁, hparse, hat⟩ := h.parseNextIndexKey hsize
      have hstatus := parseNextIndexKey_status hparse hat.valid
      rw [IndexBlockIter.scanTo, hparse, Outcome.ok_bind, hat.next]
      rcases Nat.eq_or_lt_of_le hij with rfl | hlt
      · obtain rfl : e = a := Option.some.inj (h.entry.symm.trans ha)
        rw [if_neg (fun hand => lt_irrefl _ hand.2)]
        exact ⟨it₁, rfl, hat, hstatus⟩
      · have he := List.getElem?_eq_getElem (show i + 1 < c.entries.length by omega)
        obtain ⟨it', hscan, hat', hstatus'⟩ := ih (hat.before_succ he) hlt (by omega)
        rw [if_pos ⟨hat.valid, (offset_succ_lt_iff hi hj).mpr hlt⟩]
        exact ⟨it', hscan, hat', hstatus'.trans hstatus⟩

theorem seekToRestartPoint_status {data : Bytes} {m : ℕ}
    (h : it.seekToRestartPoint data m = .ok it') : it'.status = it.status := by
  unfold seekToRestartPoint at h
  obtain ⟨offset, -, h⟩ := Outcome.bind_eq_ok.mp h
  cases h
  rfl

/-- From a restart point at or before entry `j` to the entry. -/
theorem Over.scanFrom (hsize : c.builder.buffer.length < 2 ^ 32) (h : it.Over c) {m : ℕ}
    {a : IndexEntry} (hr : c.RestartKey m i e) (hij : i ≤ j) (ha : c.entries[j]? = some a) :
    ∃ it₁ it', it.seekToRestartPoint c.block m = .ok it₁ ∧
      it₁.scanTo c.block (c.offset (j + 1)) (it.restarts + 1) = .ok it' ∧ it'.At c j a ∧
      it'.status = it.status := by
  obtain ⟨hm, -⟩ := List.getElem?_eq_some_iff.mp hr.point
  obtain ⟨hj, -⟩ := List.getElem?_eq_some_iff.mp ha
  obtain ⟨it₁, hseek, hbefore⟩ := h.seekToRestartPoint hr hsize hm
  have hfuel : j < i + (it.restarts + 1) := by
    have hlong := length_entries_le_buffer c
    rw [h.restarts]
    omega
  obtain ⟨it', hscan, hat, hstatus⟩ := hbefore.scanTo hsize hij ha hfuel
  exact ⟨it₁, it', hseek, hscan, hat, hstatus.trans (seekToRestartPoint_status hseek)⟩

/-! ### The calls -/

theorem seekToFirstImpl_eq {data : Bytes} (h : it.data = some data) :
    it.seekToFirstImpl = ({ it with status := .ok }.seekToRestartPoint data 0 >>= fun moved =>
      moved.parseNextIndexKey data) := by
  unfold seekToFirstImpl
  split
  · next hdata =>
      rw [h] at hdata
      cases hdata
  · next data' hdata =>
      obtain rfl := Option.some.inj (h.symm.trans hdata)
      rfl

theorem seekToLastImpl_eq {data : Bytes} (h : it.data = some data) :
    it.seekToLastImpl = ({ it with status := .ok }.seekToRestartPoint data (it.numRestarts - 1)
      >>= fun moved => moved.scanTo data it.restarts (it.restarts + 1)) := by
  unfold seekToLastImpl
  split
  · next hdata =>
      rw [h] at hdata
      cases hdata
  · next data' hdata =>
      obtain rfl := Option.some.inj (h.symm.trans hdata)
      rfl

theorem prevImpl_eq {data : Bytes} (h : it.data = some data) :
    it.prevImpl = (it.restartBefore data it.restartIndex >>= fun found =>
      match found with
      | none => .ok { it with current := it.restarts, restartIndex := it.numRestarts }
      | some index => it.seekToRestartPoint data index >>= fun moved =>
          moved.scanTo data it.current (it.restarts + 1)) := by
  unfold prevImpl
  split
  · next hdata =>
      rw [h] at hdata
      cases hdata
  · next data' hdata =>
      obtain rfl := Option.some.inj (h.symm.trans hdata)
      rfl

theorem seekToFirst_stands (hsize : c.builder.buffer.length < 2 ^ 32) (hne : c.entries ≠ [])
    (h : it.Over c) : ∃ it', it.seekToFirst = .ok it' ∧ it'.Stands c (some 0) := by
  have hover : { it with status := .ok }.Over c := h.of_eq rfl rfl rfl rfl rfl
  have hpos := length_restarts_pos c
  obtain ⟨i, e, hr⟩ := IndexContents.exists_restartKey hne hsize hpos
  obtain rfl : i = 0 := hr.zero.mpr rfl
  obtain ⟨it₁, hseek, hbefore⟩ := hover.seekToRestartPoint hr hsize hpos
  obtain ⟨it₂, hparse, hat⟩ := hbefore.parseNextIndexKey hsize
  have hstatus : it₂.status = .ok :=
    (parseNextIndexKey_status hparse hat.valid).trans (seekToRestartPoint_status hseek)
  refine ⟨it₂.updateKey, ?_, .of_at hat hstatus⟩
  rw [seekToFirst, seekToFirstImpl_eq h.data, hseek, Outcome.ok_bind, hparse, Outcome.ok_bind]

theorem seekToLast_stands (hsize : c.builder.buffer.length < 2 ^ 32) (hne : c.entries ≠ [])
    (h : it.Over c) :
    ∃ it', it.seekToLast = .ok it' ∧ it'.Stands c (some (c.entries.length - 1)) := by
  have hover : { it with status := .ok }.Over c := h.of_eq rfl rfl rfl rfl rfl
  have hpos := length_restarts_pos c
  have hsome := List.length_pos_of_ne_nil hne
  obtain ⟨i, e, hr⟩ := IndexContents.exists_restartKey hne hsize
    (show c.builder.restarts.length - 1 < c.builder.restarts.length by omega)
  obtain ⟨hi, -⟩ := List.getElem?_eq_some_iff.mp hr.entry
  have hlast := List.getElem?_eq_getElem
    (show c.entries.length - 1 < c.entries.length by omega)
  obtain ⟨it₁, it₂, hseek, hscan, hat, hstatus⟩ :=
    hover.scanFrom hsize hr (show i ≤ c.entries.length - 1 by omega) hlast
  have hend : it.restarts = c.offset (c.entries.length - 1 + 1) := by
    rw [h.restarts, Nat.sub_add_cancel hsome, IndexContents.offset, ← c.length_encoded,
      PlainBlockBuilder.offset_length]
    rfl
  refine ⟨it₂.updateKey, ?_, .of_at hat hstatus⟩
  rw [← hend] at hscan
  rw [← h.numRestarts] at hseek
  rw [seekToLast, seekToLastImpl_eq h.data, hseek, Outcome.ok_bind, hscan, Outcome.ok_bind]

/-- An index without entries has a restart point, but nothing to read there. -/
theorem Over.readEmpty (h : it.Over c) (hnil : c.entries = []) {m : ℕ}
    (hm : m < c.builder.restarts.length) :
    ∃ it₁ it₂, it.seekToRestartPoint c.block m = .ok it₁ ∧
      it₁.parseNextIndexKey c.block = .ok it₂ ∧ it₂.Over c ∧ it₂.valid = false ∧
      it₂.status = it.status := by
  have hzero := h.restarts_eq_zero hnil
  have hlen := PlainBlockBuilder.length_finish c.builder
  have hblock : c.block.length = c.builder.finish.length := rfl
  obtain ⟨p, hfetch⟩ : ∃ p, c.block.fetch (it.restarts + m * 4) 4 = .ok p :=
    ⟨_, Bytes.fetch_of_le (by omega)⟩
  obtain ⟨it₁, hseek, hover, hstatus, hrestarts⟩ : ∃ it₁,
      it.seekToRestartPoint c.block m = .ok it₁ ∧ it₁.Over c ∧ it₁.status = it.status ∧
        it₁.restarts = 0 := by
    rw [IndexBlockIter.seekToRestartPoint, IndexBlockIter.getRestartPoint, hfetch,
      Outcome.ok_bind, Outcome.ok_bind]
    exact ⟨_, rfl, h.of_eq rfl rfl rfl rfl rfl, rfl, hzero⟩
  refine ⟨it₁, { it₁ with current := it₁.restarts, restartIndex := it₁.numRestarts }, hseek, ?_,
    hover.of_eq rfl rfl rfl rfl rfl, ?_, hstatus⟩
  · unfold parseNextIndexKey
    dsimp only
    rw [if_pos (by omega)]
  · simp [valid]

theorem seekToFirst_empty (h : it.Over c) (hnil : c.entries = []) :
    ∃ it', it.seekToFirst = .ok it' ∧ it'.Stands c none := by
  have hover : { it with status := .ok }.Over c := h.of_eq rfl rfl rfl rfl rfl
  obtain ⟨it₁, it₂, hseek, hparse, hover₂, hvalid, hstatus⟩ :=
    hover.readEmpty hnil (length_restarts_pos c)
  refine ⟨it₂, ?_, hover₂, hstatus, (fun _ hj => nomatch hj), fun _ => hvalid⟩
  rw [seekToFirst, seekToFirstImpl_eq h.data, hseek, Outcome.ok_bind, hparse, Outcome.ok_bind,
    updateKey_of_not_valid hvalid]

theorem seekToLast_empty (h : it.Over c) (hnil : c.entries = []) :
    ∃ it', it.seekToLast = .ok it' ∧ it'.Stands c none := by
  have hover : { it with status := .ok }.Over c := h.of_eq rfl rfl rfl rfl rfl
  have hpos := length_restarts_pos c
  obtain ⟨it₁, it₂, hseek, hparse, hover₂, hvalid, hstatus⟩ :=
    hover.readEmpty hnil (show c.builder.restarts.length - 1 < c.builder.restarts.length by omega)
  refine ⟨it₂, ?_, hover₂, hstatus, (fun _ hj => nomatch hj), fun _ => hvalid⟩
  rw [← h.numRestarts] at hseek
  rw [seekToLast, seekToLastImpl_eq h.data, hseek, Outcome.ok_bind, scanTo, hparse,
    Outcome.ok_bind, if_neg (by simp [hvalid]), Outcome.ok_bind, updateKey_of_not_valid hvalid]

/-- The restart point that `PrevImpl` goes back to, unless the entry is the first one. -/
theorem At.restartBefore (hsize : c.builder.buffer.length < 2 ^ 32) (h : it.At c i e) {index : ℕ}
    (hindex : index < c.builder.restarts.length) :
    (i = 0 ∧ it.restartBefore c.block index = .ok none) ∨
      ∃ m j a, it.restartBefore c.block index = .ok (some m) ∧ c.RestartKey m j a ∧ j < i := by
  have hne : c.entries ≠ [] := List.ne_nil_of_mem (List.mem_of_getElem? h.entry)
  obtain ⟨hi, -⟩ := List.getElem?_eq_some_iff.mp h.entry
  have hlt_iff : ∀ {m j a}, c.RestartKey m j a → (¬ c.offset i ≤ c.offset j ↔ j < i) := by
    intro m j a hr
    obtain ⟨hj, -⟩ := List.getElem?_eq_some_iff.mp hr.entry
    rw [← c.length_encoded] at hi hj
    constructor
    · intro hgt
      by_contra hle
      rcases Nat.eq_or_lt_of_le (Nat.not_lt.mp hle) with rfl | hij
      · exact hgt le_rfl
      · exact hgt (le_of_lt (PlainBlockBuilder.offset_lt c.interval c.valueDelta hij (le_of_lt hj)))
    · intro hji
      exact Nat.not_le.mpr
        (PlainBlockBuilder.offset_lt c.interval c.valueDelta hji (le_of_lt hi))
  induction index with
  | zero =>
      obtain ⟨j, a, hr⟩ := IndexContents.exists_restartKey hne hsize hindex
      obtain rfl : j = 0 := hr.zero.mpr rfl
      rw [IndexBlockIter.restartBefore, h.isOver.getRestartPoint hr hsize, Outcome.ok_bind,
        h.current]
      rcases Nat.eq_zero_or_pos i with rfl | hpos
      · rw [if_pos le_rfl]
        exact .inl ⟨rfl, rfl⟩
      · rw [if_neg ((hlt_iff hr).mpr hpos)]
        exact .inr ⟨0, 0, a, rfl, hr, hpos⟩
  | succ index ih =>
      obtain ⟨j, a, hr⟩ := IndexContents.exists_restartKey hne hsize hindex
      rw [IndexBlockIter.restartBefore, h.isOver.getRestartPoint hr hsize, Outcome.ok_bind,
        h.current]
      by_cases hle : c.offset i ≤ c.offset j
      · rw [if_pos hle]
        exact ih (by omega)
      · rw [if_neg hle]
        exact .inr ⟨index + 1, j, a, rfl, hr, (hlt_iff hr).mp hle⟩

theorem Stands.prev (hsize : c.builder.buffer.length < 2 ^ 32) (h : it.Stands c (some i)) :
    ∃ it', it.prev = .ok it' ∧ it'.Stands c (if 0 < i then some (i - 1) else none) := by
  obtain ⟨e, hshows⟩ := h.shows i rfl
  have hat := hshows.toAt
  have hindex : it.restartIndex < c.builder.restarts.length := by
    rw [← h.isOver.numRestarts]
    exact hat.restartIndex
  obtain ⟨hi, -⟩ := List.getElem?_eq_some_iff.mp hat.entry
  rcases hat.restartBefore hsize hindex with ⟨rfl, hfound⟩ | ⟨m, j, a, hfound, hr, hji⟩
  · have hvalid : { it with
        current := it.restarts, restartIndex := it.numRestarts }.valid = false := by
      simp [IndexBlockIter.valid]
    refine ⟨{ it with current := it.restarts, restartIndex := it.numRestarts }, ?_,
      h.isOver.of_eq rfl rfl rfl rfl rfl, h.status, (by rintro _ ⟨⟩), fun _ => hvalid⟩
    rw [IndexBlockIter.prev, prevImpl_eq h.isOver.data, hfound, Outcome.ok_bind, Outcome.ok_bind,
      updateKey_of_not_valid hvalid]
  · have hpos : 0 < i := by omega
    have hprev := List.getElem?_eq_getElem (show i - 1 < c.entries.length by omega)
    obtain ⟨it₁, it₂, hseek, hscan, hat₂, hstatus⟩ :=
      h.isOver.scanFrom hsize hr (show j ≤ i - 1 by omega) hprev
    rw [Nat.sub_add_cancel hpos, ← hat.current] at hscan
    rw [if_pos hpos]
    refine ⟨it₂.updateKey, ?_, .of_at hat₂ (hstatus.trans h.status)⟩
    rw [IndexBlockIter.prev, prevImpl_eq h.isOver.data, hfound, Outcome.ok_bind]
    dsimp only
    rw [hseek, Outcome.ok_bind, hscan, Outcome.ok_bind]

/-! ### Runs of calls -/

theorem run_stands (hsize : c.builder.buffer.length < 2 ^ 32) (hne : c.entries ≠ [])
    (hsorted : c.Sorted u) {pos : Option ℕ} (h : it.Stands c pos) (call : IndexCall)
    (hallowed : (call.op c).Allowed pos) : ∃ it', call.run u it = .ok it' ∧
      it'.Stands c (OrderedCursor.step (c.compare u) c.keys pos (call.op c)) := by
  have hkeys : c.keys ≠ [] := by
    rw [IndexContents.keys]
    simpa using hne
  have hlength : c.keys.length = c.entries.length := List.length_map _
  cases call with
  | seekToFirst =>
      obtain ⟨it', hcall, hstands⟩ := seekToFirst_stands hsize hne h.isOver
      refine ⟨it', hcall, ?_⟩
      rw [IndexCall.op, OrderedCursor.step, if_neg hkeys]
      exact hstands
  | seekToLast =>
      obtain ⟨it', hcall, hstands⟩ := seekToLast_stands hsize hne h.isOver
      refine ⟨it', hcall, ?_⟩
      rw [IndexCall.op, OrderedCursor.step, if_neg hkeys, hlength]
      exact hstands
  | seek target => exact seek_stands hsize hsorted h.isOver target
  | next =>
      obtain ⟨i, rfl⟩ := Option.isSome_iff_exists.mp hallowed
      obtain ⟨it', hcall, hstands⟩ := h.next hsize
      refine ⟨it', hcall, ?_⟩
      rw [IndexCall.op, OrderedCursor.step, Option.bind_some, hlength]
      exact hstands
  | prev =>
      obtain ⟨i, rfl⟩ := Option.isSome_iff_exists.mp hallowed
      exact h.prev hsize

theorem runAll_stands (hsize : c.builder.buffer.length < 2 ^ 32) (hne : c.entries ≠ [])
    (hsorted : c.Sorted u) (calls : List IndexCall) {pos : Option ℕ} (h : it.Stands c pos)
    (hallowed : IndexCall.AllAllowed u c pos calls) : ∃ it', IndexCall.runAll u it calls = .ok it' ∧
      it'.Stands c (IndexCall.positionAfter u c pos calls) := by
  induction calls generalizing it pos with
  | nil => exact ⟨it, rfl, h⟩
  | cons call calls ih =>
      obtain ⟨hcall, hrest⟩ := hallowed
      obtain ⟨it₁, hrun, hstands⟩ := run_stands hsize hne hsorted h call hcall
      obtain ⟨it', hruns, hstands'⟩ := ih hstands hrest
      refine ⟨it', ?_, hstands'⟩
      rw [IndexCall.runAll, hrun, Outcome.ok_bind]
      exact hruns

/-! ### Scans -/

theorem scan_succ (step : IndexBlockIter → Outcome IndexBlockIter) {i : ℕ} (fuel : ℕ)
    (h : it.Stands c (some i)) (hi : i < c.entries.length) (hstep : step it = .ok it') :
    scan step (fuel + 1) it = scan step fuel it' >>= fun es => .ok (c.entries[i] :: es) := by
  rw [scan, h.shown, Outcome.ok_bind, Option.bind_some, List.getElem?_eq_getElem hi]
  dsimp only
  rw [hstep, Outcome.ok_bind]

theorem scan_end (step : IndexBlockIter → Outcome IndexBlockIter) (h : it.Stands c none) :
    Outcome.Settles (fun fuel => scan step fuel it) [] := by
  apply Outcome.settles_stop rfl
  intro fuel
  rw [scan, h.shown, Outcome.ok_bind]
  rfl

theorem scan_cons (step : IndexBlockIter → Outcome IndexBlockIter) {i : ℕ}
    {es : List IndexEntry} (h : it.Stands c (some i)) (hi : i < c.entries.length)
    (hstep : step it = .ok it') (hrest : Outcome.Settles (fun fuel => scan step fuel it') es) :
    Outcome.Settles (fun fuel => scan step fuel it) (c.entries[i] :: es) := by
  have hlast : Outcome.Settles (fun fuel => scan step fuel it' >>= fun es =>
      .ok (c.entries[i] :: es)) (c.entries[i] :: es) :=
    Outcome.settles_bind hrest (Outcome.settles_const rfl)
  exact Outcome.settles_succ rfl (fun fuel => scan_succ step fuel h hi hstep) hlast

/-- A scan forward from entry `i`, by induction on what is left. -/
theorem scan_next (hsize : c.builder.buffer.length < 2 ^ 32) (n : ℕ) {i : ℕ}
    (h : it.Stands c (some i)) (hi : i + n + 1 = c.entries.length) :
    Outcome.Settles (fun fuel => scan IndexBlockIter.next fuel it) (c.entries.drop i) := by
  induction n generalizing it i with
  | zero =>
      obtain ⟨it', hnext, hstands⟩ := h.next hsize
      rw [if_neg (by omega)] at hstands
      rw [List.drop_eq_getElem_cons (show i < c.entries.length by omega),
        List.drop_eq_nil_of_le (by omega)]
      exact scan_cons _ h _ hnext (scan_end _ hstands)
  | succ n ih =>
      obtain ⟨it', hnext, hstands⟩ := h.next hsize
      rw [if_pos (by omega)] at hstands
      rw [List.drop_eq_getElem_cons (show i < c.entries.length by omega)]
      exact scan_cons _ h _ hnext (ih hstands (by omega))

/-- A scan backward from entry `i`, by induction on what is left. -/
theorem scan_prev (hsize : c.builder.buffer.length < 2 ^ 32) {i : ℕ}
    (h : it.Stands c (some i)) (hi : i < c.entries.length) :
    Outcome.Settles (fun fuel => scan IndexBlockIter.prev fuel it)
      (c.entries.take (i + 1)).reverse := by
  induction i generalizing it with
  | zero =>
      obtain ⟨it', hprev, hstands⟩ := h.prev hsize
      rw [if_neg (lt_irrefl 0)] at hstands
      rw [List.take_succ_eq_append_getElem hi, List.reverse_append, List.reverse_singleton,
        List.singleton_append]
      exact scan_cons _ h hi hprev (scan_end _ hstands)
  | succ i ih =>
      obtain ⟨it', hprev, hstands⟩ := h.prev hsize
      rw [if_pos (Nat.succ_pos i), Nat.add_sub_cancel] at hstands
      rw [List.take_succ_eq_append_getElem hi, List.reverse_append, List.reverse_singleton,
        List.singleton_append]
      exact scan_cons _ h hi hprev (ih hstands (by omega))

/-! ### Keys are short -/

theorem decodeKeyV4_nonShared_lt {data : Bytes} {p limit shared nonShared p' : ℕ}
    (h : decodeKeyV4 data p limit = .ok (some (shared, nonShared, p'))) : nonShared < 2 ^ 32 := by
  unfold decodeKeyV4 at h
  by_cases hshort : limit - p < 3
  · rw [if_pos hshort] at h
    cases h
  · rw [if_neg hshort] at h
    obtain ⟨head, -, h⟩ := Outcome.bind_eq_ok.mp h
    split at h
    · next x y =>
        split_ifs at h
        · cases h
          have hbyte := y.toNat_lt
          omega
        · split at h
          · cases h
          · split at h
            · cases h
            · cases h
              exact Nat.mod_lt _ (by norm_num)
    · cases h

theorem decodeEntry_nonShared_lt {data : Bytes} {p limit shared nonShared valueLength p' : ℕ}
    (h : Tweezer.decodeEntry data p limit = .ok (some (shared, nonShared, valueLength, p'))) :
    nonShared < 2 ^ 32 := by
  obtain ⟨head, -, h⟩ := Outcome.bind_eq_ok.mp h
  split at h
  · next x y z =>
      split_ifs at h
      · cases h
        have hbyte := y.toNat_lt
        omega
      · split at h
        · cases h
        · split at h
          · cases h
          · split at h
            · cases h
            · cases h
              exact Nat.mod_lt _ (by norm_num)
  · cases h

/-- The part of a key that an entry holds has a 32-bit length. -/
theorem decodeEntry_lt {data : Bytes} {p shared nonShared valueLength p' : ℕ}
    (h : it.decodeEntry data p = .ok (some (shared, nonShared, valueLength, p'))) :
    nonShared < 2 ^ 32 := by
  unfold IndexBlockIter.decodeEntry at h
  split_ifs at h
  · obtain ⟨decoded, hdecoded, h⟩ := Outcome.bind_eq_ok.mp h
    rcases decoded with _ | ⟨a, b, d⟩
    · cases h
    · cases h
      exact decodeKeyV4_nonShared_lt hdecoded
  · exact decodeEntry_nonShared_lt h

theorem advanceRestartIndex_rawKey {data : Bytes} (fuel : ℕ)
    (h : it.advanceRestartIndex data fuel = .ok it') : it'.rawKey = it.rawKey := by
  induction fuel generalizing it with
  | zero =>
      cases h
      rfl
  | succ fuel ih =>
      unfold advanceRestartIndex at h
      split_ifs at h
      · obtain ⟨point, -, h⟩ := Outcome.bind_eq_ok.mp h
        split_ifs at h
        · have hrest := ih h
          exact hrest
        · cases h
          rfl
      · cases h
        rfl

theorem decodeCurrentValue_rawKey {data : Bytes} {shared : ℕ}
    (h : it.decodeCurrentValue data shared = .ok it') : it'.rawKey = it.rawKey := by
  unfold decodeCurrentValue at h
  by_cases hle : it.restarts < it.valueOffset
  · rw [if_pos hle] at h
    cases h
  · rw [if_neg hle] at h
    cases h
    rfl

/-- The key of the entry that is read next is at most 2^32 - 1 bytes longer than the one
before. -/
theorem parseNextIndexKey_rawKey_lt {data : Bytes} (h : it.parseNextIndexKey data = .ok it') :
    it'.rawKey.length < it.rawKey.length + 2 ^ 32 := by
  unfold parseNextIndexKey at h
  dsimp only at h
  by_cases hend : it.restarts ≤ it.nextEntryOffset
  · rw [if_pos hend] at h
    cases h
    exact Nat.lt_add_of_pos_right (by norm_num)
  · rw [if_neg hend] at h
    obtain ⟨decoded, hdecoded, h⟩ := Outcome.bind_eq_ok.mp h
    have hempty : ([] : Bytes).length < it.rawKey.length + 2 ^ 32 := by
      rw [List.length_nil]
      omega
    rcases decoded with _ | ⟨shared, nonShared, valueLength, p⟩
    · cases h
      exact hempty
    · dsimp only at h
      by_cases hshort : it.rawKey.length < shared
      · rw [if_pos hshort] at h
        cases h
        exact hempty
      · rw [if_neg hshort] at h
        obtain ⟨rest, hfetch, h⟩ := Outcome.bind_eq_ok.mp h
        have hlong : (it.rawKey.take shared ++ rest).length < it.rawKey.length + 2 ^ 32 := by
          obtain ⟨hle, rfl⟩ := Bytes.fetch_eq_ok hfetch
          have hlt := decodeEntry_lt hdecoded
          rw [List.length_append, List.length_take, Bytes.length_slice hle]
          omega
        have hvalue : ∀ it₁ : IndexBlockIter, (if it₁.valueDeltaEncoded then
            it₁.decodeCurrentValue data shared else .ok it₁) = .ok it' →
              it'.rawKey = it₁.rawKey := by
          intro it₁ hdecode
          split_ifs at hdecode
          · exact decodeCurrentValue_rawKey hdecode
          · cases hdecode
            rfl
        by_cases hshared : shared = 0
        · rw [if_pos hshared] at h
          obtain ⟨it₁, hadvance, h⟩ := Outcome.bind_eq_ok.mp h
          rw [hvalue it₁ h, advanceRestartIndex_rawKey _ hadvance]
          exact hlong
        · rw [if_neg hshared, Outcome.ok_bind] at h
          rw [hvalue _ h]
          exact hlong

/-- The first key of any block is less than 2^32 bytes long. -/
theorem seekToFirst_key_lt (h : it.seekToFirst = .ok it') (hbefore : it.valid = false)
    (hvalid : it'.valid = true) : it'.key.length < 2 ^ 32 := by
  unfold seekToFirst at h
  obtain ⟨it₁, hseek, h⟩ := Outcome.bind_eq_ok.mp h
  cases h
  have hsame : it₁.updateKey.valid = it₁.valid := by
    unfold updateKey
    split_ifs <;> rfl
  rw [hsame] at hvalid
  rw [updateKey, if_pos hvalid]
  cases hdata : it.data with
  | none =>
      unfold seekToFirstImpl at hseek
      rw [hdata] at hseek
      cases hseek
      rw [hbefore] at hvalid
      cases hvalid
  | some data =>
      rw [seekToFirstImpl_eq hdata] at hseek
      obtain ⟨it₂, hpoint, hparse⟩ := Outcome.bind_eq_ok.mp hseek
      have hempty : it₂.rawKey = [] := by
        unfold IndexBlockIter.seekToRestartPoint at hpoint
        obtain ⟨offset, -, hpoint⟩ := Outcome.bind_eq_ok.mp hpoint
        cases hpoint
        rfl
      have hlt := parseNextIndexKey_rawKey_lt hparse
      rwa [hempty, List.length_nil, Nat.zero_add] at hlt

end IndexBlockIter

namespace IndexContents

/-- The iterator that the reader, told of the form of the keys and values, makes of the block. -/
def iterator (c : IndexContents) : IndexBlockIter :=
  (Block.create c.block).newIndexIterator c.keyIncludesSeq (!c.valueDelta)

/-- The index comes back as it was written: in a scan forward, in a scan backward, and at the
position of the cursor after any calls, among them any `Seek`. -/
structure ReadsBack (u : Comparator) (c : IndexContents) : Prop where
  forward : Outcome.Settles
    (fun fuel => c.iterator.seekToFirst >>= IndexBlockIter.scan IndexBlockIter.next fuel) c.entries
  backward : Outcome.Settles
    (fun fuel => c.iterator.seekToLast >>= IndexBlockIter.scan IndexBlockIter.prev fuel)
    c.entries.reverse
  follows : ∀ calls, IndexCall.AllAllowed u c none calls →
    ∃ it', IndexCall.runAll u c.iterator calls = .ok it' ∧ it'.status = .ok ∧
      it'.shown = .ok ((IndexCall.positionAfter u c none calls).bind fun i => c.entries[i]?)

theorem iterator_stands {c : IndexContents} (hsize : c.builder.buffer.length < 2 ^ 32) :
    c.iterator.Stands c none := by
  obtain ⟨hover, hstatus⟩ := IndexBlockIter.newIndexIterator_block hsize
  refine ⟨hover, hstatus, (fun _ hj => nomatch hj), fun _ => ?_⟩
  rw [iterator]
  exact Block.newIndexIterator_invalid _ _ _

/-- An index block whose entries take up less than 2^32 bytes reads back. -/
theorem readsBack {c : IndexContents} {u : Comparator} (hne : c.entries ≠ [])
    (hsorted : c.Sorted u) (hsize : c.builder.buffer.length < 2 ^ 32) : c.ReadsBack u := by
  have hsome := List.length_pos_of_ne_nil hne
  have hstart := iterator_stands hsize
  constructor
  · obtain ⟨it, hfirst, hstands⟩ := IndexBlockIter.seekToFirst_stands hsize hne hstart.isOver
    have hscan := IndexBlockIter.scan_next hsize (c.entries.length - 1) hstands (by omega)
    exact Outcome.settles_bind (Outcome.settles_const hfirst) hscan
  · obtain ⟨it, hlast, hstands⟩ := IndexBlockIter.seekToLast_stands hsize hne hstart.isOver
    have hscan := IndexBlockIter.scan_prev hsize hstands (by omega)
    rw [Nat.sub_add_cancel hsome, List.take_length] at hscan
    exact Outcome.settles_bind (Outcome.settles_const hlast) hscan
  · intro calls hallowed
    obtain ⟨it, hrun, hstands⟩ :=
      IndexBlockIter.runAll_stands hsize hne hsorted calls hstart hallowed
    exact ⟨it, hrun, hstands.status, hstands.shown⟩

end IndexContents

/-- An index of three blocks, the second key a continuation of the first. -/
def sampleIndex : IndexContents where
  interval := 2
  valueDelta := true
  keyIncludesSeq := false
  entries := [⟨[97], ⟨0, 10⟩⟩, ⟨[97, 98], ⟨15, 300⟩⟩, ⟨[99], ⟨320, 4⟩⟩]
  interval_pos := by decide
  fits := by
    intro e he
    simp only [List.mem_cons, List.not_mem_nil, or_false] at he
    rcases he with rfl | rfl | rfl <;> exact ⟨by decide, by decide⟩
  follows := by
    intro _
    apply List.isChain_cons_cons.mpr
    exact ⟨⟨rfl, rfl⟩, List.isChain_cons_cons.mpr ⟨⟨rfl, rfl⟩, List.IsChain.singleton _⟩⟩

theorem sampleIndex_readsBack : sampleIndex.ReadsBack bytewiseComparator :=
  IndexContents.readsBack (List.cons_ne_nil _ _) (by unfold IndexContents.Sorted; decide)
    (by decide)

namespace IndexContents

/-- An index of one entry. -/
def single (key : Bytes) : IndexContents where
  interval := 1
  valueDelta := false
  keyIncludesSeq := false
  entries := [⟨key, ⟨0, 1⟩⟩]
  interval_pos := Nat.one_pos
  fits := by
    intro e he
    obtain rfl := List.mem_singleton.mp he
    exact ⟨by norm_num, by norm_num⟩
  follows := fun h => nomatch h

theorem single_not_readsBack (u : Comparator) {key : Bytes} (hlong : 2 ^ 32 ≤ key.length) :
    ¬ (single key).ReadsBack u := by
  intro h
  obtain ⟨it', hrun, -, hshown⟩ := h.follows [.seekToFirst] ⟨trivial, trivial⟩
  obtain ⟨it₁, hfirst, hrun⟩ := Outcome.bind_eq_ok.mp hrun
  obtain rfl : it₁ = it' := Except.ok.inj hrun
  have hposition : (IndexCall.positionAfter u (single key) none [.seekToFirst]).bind
      (fun i => (single key).entries[i]?) = some ⟨key, ⟨0, 1⟩⟩ := rfl
  rw [hposition, IndexBlockIter.shown] at hshown
  by_cases hvalid : it₁.valid = true
  · rw [if_pos hvalid] at hshown
    obtain ⟨handle, -, hshown⟩ := Outcome.bind_eq_ok.mp hshown
    have hkey : it₁.key = key := by
      have hentry := Option.some.inj (Except.ok.inj hshown)
      exact congrArg IndexEntry.key hentry
    have hlt := IndexBlockIter.seekToFirst_key_lt hfirst
      (Block.newIndexIterator_invalid _ _ _) hvalid
    rw [hkey] at hlt
    omega
  · rw [if_neg hvalid] at hshown
    cases hshown

end IndexContents

/-- A key of 2^32 bytes is lost. -/
theorem longKey_not_readsBack :
    (IndexContents.single (List.replicate (2 ^ 32) 0)).entries ≠ [] ∧
      (IndexContents.single (List.replicate (2 ^ 32) 0)).Sorted bytewiseComparator ∧
      ¬ (IndexContents.single (List.replicate (2 ^ 32) 0)).ReadsBack bytewiseComparator := by
  refine ⟨List.cons_ne_nil _ _, List.pairwise_singleton _ _, ?_⟩
  apply IndexContents.single_not_readsBack
  rw [List.length_replicate]

end Tweezer
