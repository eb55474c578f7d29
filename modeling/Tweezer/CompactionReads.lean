import Mathlib.Data.List.TakeWhile
import Tweezer.CompactionIterator
import Tweezer.NewestVisible

/-!
# What snapshots see of the entries of a compaction

The snapshots that no listed one tells apart, reads at a snapshot or at the tip, and how single
deletions are to be used.
-/

namespace Tweezer

open NewestVisible (HiddenBy)

/-! ### The order of entries -/

/-- The footer of the internal key. -/
def CompactionEntry.footer (e : CompactionEntry) : ℕ := e.sequence * 256 + e.type.code

theorem CompactionEntry.footer_eq_pack (e : CompactionEntry) :
    e.footer = packSequenceAndType e.sequence e.type.code := by
  have hseq := e.sequence_le
  have hcode : e.type.code < 256 := by cases e.type <;> decide
  unfold footer packSequenceAndType
  unfold kMaxSequenceNumber at hseq
  rw [Nat.mod_eq_of_lt (by omega)]

namespace CompactionIterator

variable (C : CompactionIterator)

/-- The order of internal keys. -/
def Before (a b : CompactionEntry) : Prop :=
  compareVersions C.cmp (a.userKey, a.footer) (b.userKey, b.footer) = .lt

/-- Two entries of one user key. -/
def Same (a b : CompactionEntry) : Prop := C.cmp.compare a.userKey b.userKey = .eq

variable {C}

theorem Same.refl (a : CompactionEntry) : C.Same a a := by
  have := C.cmp.transCmp
  exact Std.ReflCmp.compare_self

theorem Same.symm {a b : CompactionEntry} (h : C.Same a b) : C.Same b a := by
  have := C.cmp.transCmp
  exact Std.OrientedCmp.eq_symm h

theorem Same.trans {a b c : CompactionEntry} (h : C.Same a b) (h' : C.Same b c) : C.Same a c := by
  have := C.cmp.transCmp
  exact Std.TransCmp.eq_trans h h'

theorem before_iff {a b : CompactionEntry} :
    C.Before a b ↔ C.cmp.compare a.userKey b.userKey = .lt ∨
      C.Same a b ∧ b.footer < a.footer := by
  unfold Before compareVersions Same
  cases C.cmp.compare a.userKey b.userKey with
  | lt => simp
  | eq => simp [compare_lt_iff_lt]
  | gt => simp

theorem Before.footer_lt {a b : CompactionEntry} (h : C.Before a b) (hsame : C.Same a b) :
    b.footer < a.footer := by
  cases before_iff.mp h with
  | inl hlt => exact Ordering.noConfusion (hlt.symm.trans hsame)
  | inr h => exact h.2

theorem Before.sequence_le {a b : CompactionEntry} (h : C.Before a b) (hsame : C.Same a b) :
    b.sequence ≤ a.sequence := by
  have hlt := h.footer_lt hsame
  have hcode : a.type.code < 256 := by cases a.type <;> decide
  unfold CompactionEntry.footer at hlt
  omega

/-- The order goes by the user key and the footer. -/
theorem Before.congr {a b a' b' : CompactionEntry} (h : C.Before a b) (ha : C.Same a' a)
    (hb : C.Same b' b) (hfoota : a.footer ≤ a'.footer) (hfootb : b'.footer ≤ b.footer) :
    C.Before a' b' := by
  have := C.cmp.transCmp
  apply before_iff.mpr
  cases before_iff.mp h with
  | inl hlt =>
      left
      have hlt' := Std.TransCmp.lt_of_eq_of_lt ha hlt
      exact Std.TransCmp.lt_of_lt_of_eq hlt' (Same.symm hb)
  | inr h =>
      right
      exact ⟨(ha.trans h.1).trans hb.symm, by omega⟩

/-- Behind an entry that another key follows, there is no entry of the first key. -/
theorem not_same_of_before {p e b : CompactionEntry} (hpe : C.Before p e) (hne : ¬C.Same p e)
    (heb : C.Before e b) : ¬C.Same p b := by
  have := C.cmp.transCmp
  intro hpb
  cases before_iff.mp hpe with
  | inr h => exact hne h.1
  | inl hlt =>
      have hlt' : C.cmp.compare p.userKey b.userKey = .lt := by
        cases before_iff.mp heb with
        | inl h => exact Std.TransCmp.lt_trans hlt h
        | inr h => exact Std.TransCmp.lt_of_lt_of_eq hlt h.1
      exact Ordering.noConfusion (hlt'.symm.trans hpb)

theorem Before.of_not_same {a b a' : CompactionEntry} (h : C.Before a b) (hne : ¬C.Same a b)
    (ha : C.Same a' a) : C.Before a' b := by
  have := C.cmp.transCmp
  apply before_iff.mpr
  cases before_iff.mp h with
  | inl hlt => exact Or.inl (Std.TransCmp.lt_of_eq_of_lt ha hlt)
  | inr h => exact absurd h.1 hne

theorem sameUserKey_iff {a b : CompactionEntry} :
    C.sameUserKey a.userKey b.userKey = true ↔ C.Same a b := by
  unfold sameUserKey Same
  exact decide_eq_true_iff

/-! ### Snapshots -/

variable (C) in
/-- A snapshot that is listed, or the tip. -/
def Listed (s : ℕ) : Prop := s ∈ C.snapshots ∨ s = kMaxSequenceNumber

theorem Listed.le {s : ℕ} (h : C.Listed s) : s ≤ kMaxSequenceNumber := by
  cases h with
  | inl hmem => exact C.snapshots_le s hmem
  | inr heq => exact heq.le

theorem earliestSnapshot_le {s : ℕ} (h : C.Listed s) : C.earliestSnapshot ≤ s := by
  unfold earliestSnapshot
  cases h with
  | inl hmem =>
      have hasc := C.ascending
      revert hmem hasc
      cases C.snapshots with
      | nil => intro hmem; cases hmem
      | cons first rest =>
          intro hmem hasc
          rw [List.head?_cons, Option.getD_some]
          cases List.mem_cons.mp hmem with
          | inl heq => exact heq.ge
          | inr hrest => exact (List.rel_of_pairwise_cons hasc hrest).le
  | inr heq =>
      rw [heq]
      have hle := C.snapshots_le
      revert hle
      cases C.snapshots with
      | nil => exact fun _ => le_refl _
      | cons first rest => exact fun hle => hle first List.mem_cons_self

theorem earliestSnapshot_le_conflict : C.earliestSnapshot ≤ C.earliestWriteConflictSnapshot :=
  earliestSnapshot_le C.conflict_mem

theorem listed_earliestVisibleSnapshot (seq : ℕ) : C.Listed (C.earliestVisibleSnapshot seq) := by
  unfold earliestVisibleSnapshot
  cases hfind : C.snapshots.find? fun s => seq ≤ s with
  | none => exact Or.inr rfl
  | some s => exact Or.inl (List.mem_of_find?_eq_some hfind)

theorem le_earliestVisibleSnapshot {seq : ℕ} (h : seq ≤ kMaxSequenceNumber) :
    seq ≤ C.earliestVisibleSnapshot seq := by
  unfold earliestVisibleSnapshot
  cases hfind : C.snapshots.find? fun s => seq ≤ s with
  | none => exact h
  | some s => exact of_decide_eq_true (List.find?_some (p := fun s => decide (seq ≤ s)) hfind)

theorem earliestVisibleSnapshot_le {seq s : ℕ} (hs : C.Listed s) (hle : seq ≤ s) :
    C.earliestVisibleSnapshot seq ≤ s := by
  cases hs with
  | inr heq => exact heq ▸ (listed_earliestVisibleSnapshot seq).le
  | inl hmem =>
      unfold earliestVisibleSnapshot
      have hasc := C.ascending
      revert hmem hasc
      generalize C.snapshots = snapshots
      intro hmem hasc
      induction snapshots with
      | nil => cases hmem
      | cons first rest ih =>
          by_cases hfirst : seq ≤ first
          · rw [List.find?_cons_of_pos (by exact decide_eq_true hfirst), Option.getD_some]
            cases List.mem_cons.mp hmem with
            | inl heq => exact heq.ge
            | inr hrest => exact (List.rel_of_pairwise_cons hasc hrest).le
          · rw [List.find?_cons_of_neg (by simp [hfirst])]
            cases List.mem_cons.mp hmem with
            | inl heq => exact absurd (heq ▸ hle) hfirst
            | inr hrest => exact ih hrest hasc.of_cons

/-- No listed snapshot is between two sequence numbers that are first visible in the same. -/
theorem le_of_earliestVisible_eq {a b s : ℕ} (ha : a ≤ kMaxSequenceNumber)
    (heq : C.earliestVisibleSnapshot a = C.earliestVisibleSnapshot b) (hs : C.Listed s)
    (hle : b ≤ s) : a ≤ s :=
  calc a ≤ C.earliestVisibleSnapshot a := le_earliestVisibleSnapshot ha
    _ = C.earliestVisibleSnapshot b := heq
    _ ≤ s := earliestVisibleSnapshot_le hs hle

theorem earliestVisibleSnapshot_mono {a b : ℕ} (hb : b ≤ kMaxSequenceNumber) (hle : a ≤ b) :
    C.earliestVisibleSnapshot a ≤ C.earliestVisibleSnapshot b :=
  earliestVisibleSnapshot_le (listed_earliestVisibleSnapshot b)
    (hle.trans (le_earliestVisibleSnapshot hb))

theorem earliestVisibleSnapshot_eq {a b : ℕ} (hb : b ≤ kMaxSequenceNumber) (hle : a ≤ b)
    (hnone : ∀ s, C.Listed s → a ≤ s → b ≤ s) :
    C.earliestVisibleSnapshot a = C.earliestVisibleSnapshot b := by
  apply le_antisymm (earliestVisibleSnapshot_mono hb hle)
  have hlisted := listed_earliestVisibleSnapshot (C := C) a
  exact earliestVisibleSnapshot_le hlisted
    (hnone _ hlisted (le_earliestVisibleSnapshot (hle.trans hb)))

theorem listed_earliestSnapshot : C.Listed C.earliestSnapshot := by
  unfold earliestSnapshot Listed
  cases C.snapshots with
  | nil => exact Or.inr rfl
  | cons first rest => exact Or.inl List.mem_cons_self

/-- What the earliest snapshot sees is first visible there. -/
theorem earliestVisibleSnapshot_eq_earliest {seq : ℕ} :
    seq ≤ kMaxSequenceNumber →
      (C.earliestVisibleSnapshot seq = C.earliestSnapshot ↔ seq ≤ C.earliestSnapshot) := by
  intro hseq
  constructor
  · exact fun heq => heq ▸ le_earliestVisibleSnapshot hseq
  · intro hle
    exact le_antisymm (earliestVisibleSnapshot_le listed_earliestSnapshot hle)
      (earliestSnapshot_le (listed_earliestVisibleSnapshot seq))

/-- Only the sequence number 0 is first visible in a snapshot at 0. -/
theorem eq_zero_of_earliestVisibleSnapshot {seq : ℕ} (hseq : seq ≤ kMaxSequenceNumber)
    (h : C.earliestVisibleSnapshot seq = 0) : seq = 0 ∧ 0 ∈ C.snapshots := by
  have hle : seq ≤ C.earliestVisibleSnapshot seq := le_earliestVisibleSnapshot hseq
  have hlisted := listed_earliestVisibleSnapshot (C := C) seq
  rw [h] at hle hlisted
  constructor
  · exact Nat.le_zero.mp hle
  · exact hlisted.resolve_right (by decide)

/-- The snapshots below a sequence number end with the previous one. -/
theorem le_prevSnapshot {seq s : ℕ} (hs : s ∈ C.snapshots) (hlt : s < seq) :
    s ≤ C.prevSnapshot seq := by
  unfold prevSnapshot
  have hasc := C.ascending
  revert hs hasc
  generalize C.snapshots = snapshots
  intro hs hasc
  induction snapshots with
  | nil => cases hs
  | cons first rest ih =>
      have hfirst : first < seq := by
        cases List.mem_cons.mp hs with
        | inl heq => exact heq ▸ hlt
        | inr hrest => exact (List.rel_of_pairwise_cons hasc hrest).trans hlt
      rw [List.takeWhile_cons_of_pos (by exact decide_eq_true hfirst), List.getLast?_cons,
        Option.getD_some]
      cases List.mem_cons.mp hs with
      | inl heq =>
          rw [heq]
          cases hlast : (rest.takeWhile fun s => s < seq).getLast? with
          | none => exact le_refl first
          | some l =>
              have hmem := (List.takeWhile_sublist _).subset (List.mem_of_getLast? hlast)
              exact (List.rel_of_pairwise_cons hasc hmem).le
      | inr hrest =>
          have hih := ih hrest hasc.of_cons
          cases hlast : (rest.takeWhile fun s => s < seq).getLast? with
          | none =>
              rw [hlast] at hih
              exact hih.trans (Nat.zero_le _)
          | some l =>
              rw [hlast] at hih
              exact hih

theorem prevSnapshot_mem {seq : ℕ} (h : C.prevSnapshot seq ≠ 0) :
    C.prevSnapshot seq ∈ C.snapshots ∧ C.prevSnapshot seq < seq := by
  unfold prevSnapshot at h ⊢
  cases hlast : (C.snapshots.takeWhile fun s => s < seq).getLast? with
  | none =>
      rw [hlast] at h
      exact absurd rfl h
  | some l =>
      have hmem := List.mem_of_getLast? hlast
      have hlt := List.mem_takeWhile_imp hmem
      exact ⟨(List.takeWhile_sublist _).subset hmem, of_decide_eq_true hlt⟩

/-- A previous snapshot does not see the sequence number, and so the earliest does not. -/
theorem earliestSnapshot_lt_of_prev {seq : ℕ} (h : C.prevSnapshot seq ≠ 0) :
    C.earliestSnapshot < seq := by
  obtain ⟨hmem, hlt⟩ := prevSnapshot_mem h
  exact (earliestSnapshot_le (Or.inl hmem)).trans_lt hlt

/-- An older sequence number that is not taken to be in an earlier snapshot is in none, unless 0
is a snapshot. -/
theorem le_of_prevSnapshot {seq older s : ℕ} (hseq : seq ≤ kMaxSequenceNumber)
    (hprev : C.prevSnapshot seq = 0 ∨ C.prevSnapshot seq < older)
    (hzero : 0 ∈ C.snapshots → older = 0 → seq = 0) (hs : C.Listed s) (hle : older ≤ s) :
    seq ≤ s := by
  cases hs with
  | inr heq => exact heq ▸ hseq
  | inl hmem =>
      by_contra hlt
      have hprev' := le_prevSnapshot hmem (Nat.lt_of_not_le hlt)
      have hs0 : s = 0 := by
        cases hprev with
        | inl h => omega
        | inr h => omega
      have holder : older = 0 := by omega
      have hseq0 := hzero (hs0 ▸ hmem) holder
      omega

/-! ### Reads -/

variable (C)

/-- A reader of a user key at a snapshot sees the versions of the key up to the snapshot. -/
def sees (r : Bytes × ℕ) (e : CompactionEntry) : Bool :=
  C.sameUserKey e.userKey r.1 && decide (e.sequence ≤ r.2)

/-- A deletion is read as if there were nothing. -/
def found (e : CompactionEntry) : Option Bytes := if e.type = .value then some e.value else none

def readAt (userKey : Bytes) (snapshot : ℕ) (entries : List CompactionEntry) : Option Bytes :=
  NewestVisible.read C.sees found (userKey, snapshot) entries

/-- Every user key reads the same at every listed snapshot and at the tip. -/
def ReadsSame (entries entries' : List CompactionEntry) : Prop :=
  NewestVisible.SameReads C.sees found (fun r => C.Listed r.2) entries entries'

variable {C}

theorem sees_iff {r : Bytes × ℕ} {e : CompactionEntry} :
    C.sees r e = true ↔ C.cmp.compare e.userKey r.1 = .eq ∧ e.sequence ≤ r.2 := by
  unfold sees sameUserKey
  rw [Bool.and_eq_true, decide_eq_true_iff, decide_eq_true_iff]

theorem sees_congr {a b : CompactionEntry} (hsame : C.Same a b) (hseq : a.sequence = b.sequence)
    (r : Bytes × ℕ) : C.sees r a = C.sees r b := by
  have := C.cmp.transCmp
  have hiff : C.sees r a = true ↔ C.sees r b = true := by
    rw [sees_iff, sees_iff, hseq]
    constructor
    · exact fun h => ⟨Std.TransCmp.eq_trans (Same.symm hsame) h.1, h.2⟩
    · exact fun h => ⟨Std.TransCmp.eq_trans hsame h.1, h.2⟩
  exact Bool.eq_iff_iff.mpr hiff

/-- Entries that one reader sees are of one key. -/
theorem same_of_sees {r : Bytes × ℕ} {a b : CompactionEntry} (ha : C.sees r a = true)
    (hb : C.cmp.compare b.userKey r.1 = .eq) : C.Same a b := by
  have := C.cmp.transCmp
  exact Std.TransCmp.eq_trans (sees_iff.mp ha).1 (Std.OrientedCmp.eq_symm hb)

theorem not_sees_of_not_same {r : Bytes × ℕ} {a b : CompactionEntry} (ha : C.sees r a = true)
    (hne : ¬C.Same a b) : ¬C.sees r b = true :=
  fun hb => hne (same_of_sees ha (sees_iff.mp hb).1)

/-- A version is hidden by one of its key that every listed snapshot that sees the version sees
too. -/
theorem hiddenBy_of_mem {front : List CompactionEntry} {o e : CompactionEntry} (ho : o ∈ front)
    (hsame : C.Same o e) (hle : ∀ s, C.Listed s → e.sequence ≤ s → o.sequence ≤ s) :
    HiddenBy C.sees (fun r => C.Listed r.2) front e := by
  have := C.cmp.transCmp
  intro r hr hsees
  obtain ⟨hkey, hseq⟩ := sees_iff.mp hsees
  exact ⟨o, ho, sees_iff.mpr ⟨Std.TransCmp.eq_trans hsame hkey, hle r.2 hr hseq⟩⟩

/-! ### What a compaction is given and what it has to keep -/

/-- What stands under a single deletion: nothing, another one, or the one put that it deletes,
with nothing or a single deletion under it. -/
def DeletesOnePut : List CompactionEntry → Prop
  | [] => True
  | p :: below => p.type = .singleDeletion ∨
      p.type = .value ∧ ∀ q, below.head? = some q → q.type = .singleDeletion

/-- `SingleDelete` is used as its documentation asks: there is one put since the last single
deletion of the key, and no other kind of write is mixed with them. -/
def SingleDeletesOnce : List CompactionEntry → Prop
  | [] => True
  | e :: below => (e.type = .singleDeletion → DeletesOnePut below) ∧ SingleDeletesOnce below

variable (C)

/-- The versions of a user key, newest first. -/
def versionsOfKey (userKey : Bytes) (entries : List CompactionEntry) : List CompactionEntry :=
  entries.filter fun e => C.sameUserKey e.userKey userKey

/-- An input over the older levels: it is strictly increasing, the levels hold only older versions
of its keys, single deletions are used as they should be, and the oracle is truthful. -/
structure WellFormed (input older : List CompactionEntry) : Prop where
  increasing : input.Pairwise C.Before
  older_lt : ∀ e ∈ input, ∀ o ∈ older, C.Same e o → o.sequence < e.sequence
  singleDeletes : ∀ key, SingleDeletesOnce (C.versionsOfKey key (input ++ older))
  truthful : ∀ key, (∃ e ∈ input, C.cmp.compare e.userKey key = .eq) →
    C.keyNotExistsBeyondOutputLevel key = true →
      ∀ o ∈ older, ¬C.cmp.compare o.userKey key = .eq

/-- The output is strictly increasing, and every read over the older levels is the same as over
the input. -/
def KeepsReads (input older : List CompactionEntry) : Prop :=
  (C.outputs input).Pairwise C.Before ∧
    C.ReadsSame (C.outputs input ++ older) (input ++ older)

/-- The version `d` behind `newer` is the newest of its key that is first visible where it is. -/
def NewestOfStripe (newer : List CompactionEntry) (d : CompactionEntry) : Prop :=
  ∀ q, newer.getLast? = some q → C.Same q d →
    C.earliestVisibleSnapshot q.sequence ≠ C.earliestVisibleSnapshot d.sequence

/-- When the value `z` at sequence number 0 behind `above` is kept for a snapshot at 0, which the
code takes for none: a version `p` of the key is in front of it, and that is at 0 too and hides
it; or it is no single deletion with no snapshot but 0 before it, and no deletion to be dropped
at the bottommost level has no snapshot but 0 before it and is the newest of its snapshot. -/
def KeptAtZero (above : List CompactionEntry) (z : CompactionEntry) : Prop :=
  ∃ newer p, above = newer ++ [p] ∧ C.Same p z ∧
    (p.sequence = 0 ∨
      (p.type = .singleDeletion → C.prevSnapshot p.sequence ≠ 0) ∧
      (C.bottommostLevel = true → ∀ newer d mid, above = newer ++ d :: mid → C.Same d z →
        d.type = .deletion → C.prevSnapshot d.sequence = 0 →
        C.ikeyNotNeededForIncrementalSnapshot d.sequence = true → ¬C.NewestOfStripe newer d))

/-- No value at 0 is taken for one that no snapshot sees. -/
def ZeroKept (input : List CompactionEntry) : Prop :=
  0 ∈ C.snapshots → ∀ above z below, input = above ++ z :: below → z.sequence = 0 →
    z.type = .value → C.KeptAtZero above z

variable {C}

theorem singleDeletesOnce_append {a b : List CompactionEntry} (h : SingleDeletesOnce (a ++ b)) :
    SingleDeletesOnce b := by
  induction a with
  | nil => exact h
  | cons e a ih => exact ih h.2

end CompactionIterator

end Tweezer
