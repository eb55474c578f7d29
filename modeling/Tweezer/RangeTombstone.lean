import Mathlib.Data.List.Induction
import Mathlib.Data.List.MinMax
import Mathlib.Data.List.Sort
import Tweezer.InternalKey
import Tweezer.OrderedCursor

/-!
# Range tombstones and their fragments

`db/range_tombstone_fragmenter.cc`, as it is used for reads. Overlapping range deletions are
cut into fragments that do not overlap, each with the sequence numbers of the deletions that
cover it, so that the newest one over a key is found by looking for a single fragment.
-/

namespace Tweezer

structure RangeTombstone where
  startKey : Bytes
  endKey : Bytes
  seq : ℕ
  deriving DecidableEq, Repr

/-- From the start key on, up to the end key but without it. -/
def RangeTombstone.Covers (u : Comparator) (t : RangeTombstone) (key : Bytes) : Prop :=
  u.compare t.startKey key ≠ .gt ∧ u.compare key t.endKey = .lt

instance (u : Comparator) (t : RangeTombstone) (key : Bytes) : Decidable (t.Covers u key) :=
  inferInstanceAs (Decidable (_ ∧ _))

/-- The newest of the visible deletions that cover a key, zero if there is none. -/
def maxCovering (u : Comparator) (ts : List RangeTombstone) (snapshot : ℕ) (key : Bytes) : ℕ :=
  ((ts.filter fun t => t.Covers u key ∧ t.seq ≤ snapshot).map RangeTombstone.seq).foldr max 0

/-- Fragments that start and end at the same keys, as one: their sequence numbers, newest
first. -/
structure RangeTombstoneStack where
  startKey : Bytes
  endKey : Bytes
  seqs : List ℕ
  deriving DecidableEq, Repr

namespace FragmentedRangeTombstoneList

variable (u : Comparator)

/-- `cur_end_keys.emplace`: the end keys are in order, those of one key newest first. -/
def emplace (ends : List (Bytes × ℕ)) (e : Bytes × ℕ) : List (Bytes × ℕ) :=
  (OrderedCursor.insert (compareVersions u) e ends).getD ends

def seqnumsToFlush (ends : List (Bytes × ℕ)) : List ℕ :=
  (ends.map Prod.snd).insertionSort (· ≥ ·)

/-- `flush_current_tombstones`: the fragments between `curStartKey` and the next start key, and
the end keys that are left. -/
def flushCurrentTombstones (nextStartKey : Bytes) :
    Bytes → List (Bytes × ℕ) → List RangeTombstoneStack × List (Bytes × ℕ)
  | _, [] => ([], [])
  | curStartKey, e :: ends =>
      if u.compare curStartKey e.1 = .eq then flushCurrentTombstones nextStartKey curStartKey ends
      else if u.compare nextStartKey e.1 ≠ .gt then
        ([⟨curStartKey, nextStartKey, seqnumsToFlush (e :: ends)⟩], e :: ends)
      else
        let (tombstones, left) := flushCurrentTombstones nextStartKey e.1 ends
        (⟨curStartKey, e.1, seqnumsToFlush (e :: ends)⟩ :: tombstones, left)

/-- The locals of `FragmentTombstones`. -/
structure Fragmenting where
  curStartKey : Bytes
  curEndKeys : List (Bytes × ℕ)
  tombstones : List RangeTombstoneStack

/-- The body of its loop. -/
def addTombstone (st : Fragmenting) (t : RangeTombstone) : Fragmenting :=
  if st.curEndKeys ≠ [] ∧ u.compare st.curStartKey t.startKey ≠ .eq then
    let (tombstones, left) := flushCurrentTombstones u t.startKey st.curStartKey st.curEndKeys
    ⟨t.startKey, emplace u left (t.endKey, t.seq), st.tombstones ++ tombstones⟩
  else ⟨t.startKey, emplace u st.curEndKeys (t.endKey, t.seq), st.tombstones⟩

def fragmentTombstones (ts : List RangeTombstone) : List RangeTombstoneStack :=
  let st := ts.foldl (addTombstone u) ⟨[], [], []⟩
  match st.curEndKeys.getLast? with
  | none => st.tombstones
  | some last =>
      st.tombstones ++ (flushCurrentTombstones u last.1 st.curStartKey st.curEndKeys).1

/-- The entries of a table of range deletions, internal keys and end keys, as tombstones. -/
def tombstonesOf (entries : List (Bytes × Bytes)) : List RangeTombstone :=
  entries.map fun e => ⟨extractUserKey e.1, e.2, extractInternalKeyFooter e.1 / 256⟩

/-- The constructor, which sorts entries that are out of order. -/
def create (entries : List (Bytes × Bytes)) : List RangeTombstoneStack :=
  let inOrder : Bytes × Bytes → Bytes × Bytes → Bool := fun a b => icmp u a.1 b.1 ≠ .gt
  fragmentTombstones u (tombstonesOf
    (if entries.IsChain (fun a b => inOrder a b = true) then entries else entries.mergeSort inOrder))

/-- `FragmentedRangeTombstoneIterator::MaxCoveringTombstoneSeqnum`, `upperBound` being the
sequence number that is read at. -/
def maxCoveringTombstoneSeqnum (tombstones : List RangeTombstoneStack) (upperBound : ℕ)
    (key : Bytes) : ℕ :=
  match tombstones.find? fun st => u.compare key st.endKey = .lt with
  | none => 0
  | some st =>
      match st.seqs.find? fun seq => seq ≤ upperBound with
      | none => 0
      | some seq => if u.compare st.startKey key ≠ .gt then seq else 0

section Cover

/-! The proofs compare keys in a linear order that `f` maps them to. -/

variable {κ : Type} [LinearOrder κ] {f : Bytes → κ}

/-- The fragment lies over `k` with the sequence number `seq`. -/
def LiesOver (f : Bytes → κ) (st : RangeTombstoneStack) (k : κ) (seq : ℕ) : Prop :=
  f st.startKey ≤ k ∧ k < f st.endKey ∧ seq ∈ st.seqs

/-- Fragments between two bounds, one behind the other, newest first in each. -/
structure Lined (f : Bytes → κ) (low high : κ) (tombstones : List RangeTombstoneStack) : Prop where
  within : ∀ st ∈ tombstones, low ≤ f st.startKey ∧ f st.startKey < f st.endKey ∧ f st.endKey ≤ high
  behind : tombstones.Pairwise fun a b => f a.endKey ≤ f b.startKey
  newestFirst : ∀ st ∈ tombstones, st.seqs.Pairwise (· ≥ ·)

theorem Lined.append {low mid high : κ} {l l' : List RangeTombstoneStack} (h : Lined f low mid l)
    (h' : Lined f mid high l') (hlow : low ≤ mid) (hhigh : mid ≤ high) :
    Lined f low high (l ++ l') := by
  refine ⟨?_, List.pairwise_append.mpr ⟨h.behind, h'.behind, ?_⟩, ?_⟩
  · intro st hst
    rcases List.mem_append.mp hst with hst | hst
    · obtain ⟨h₁, h₂, h₃⟩ := h.within st hst
      exact ⟨h₁, h₂, h₃.trans hhigh⟩
    · obtain ⟨h₁, h₂, h₃⟩ := h'.within st hst
      exact ⟨hlow.trans h₁, h₂, h₃⟩
  · intro a ha b hb
    exact (h.within a ha).2.2.trans (h'.within b hb).1
  · intro st hst
    rcases List.mem_append.mp hst with hst | hst
    · exact h.newestFirst st hst
    · exact h'.newestFirst st hst

theorem lined_nil (low high : κ) : Lined f low high [] :=
  ⟨(fun _ h => nomatch h), .nil, (fun _ h => nomatch h)⟩

theorem lined_singleton {start stop : Bytes} (h : f start < f stop) (ends : List (Bytes × ℕ)) :
    Lined f (f start) (f stop) [⟨start, stop, seqnumsToFlush ends⟩] := by
  refine ⟨?_, List.pairwise_singleton _ _, ?_⟩
  · intro st hst
    obtain rfl := List.mem_singleton.mp hst
    exact ⟨le_refl _, h, le_refl _⟩
  · intro st hst
    obtain rfl := List.mem_singleton.mp hst
    exact List.pairwise_insertionSort _ _

theorem mem_seqnumsToFlush {ends : List (Bytes × ℕ)} {seq : ℕ} :
    seq ∈ seqnumsToFlush ends ↔ ∃ e ∈ ends, e.2 = seq := by
  rw [seqnumsToFlush, List.mem_insertionSort, List.mem_map]

variable {u : Comparator} (hf : ∀ a b, u.compare a b = compare (f a) (f b))
include hf

/-- What is flushed between two start keys, by induction on the end keys: below the next start
key the fragments lie where the pending deletions reach, and what reaches further is left. -/
theorem flushCurrentTombstones_spec (nextStartKey : Bytes) (ends : List (Bytes × ℕ))
    (curStartKey : Bytes) (hlt : f curStartKey < f nextStartKey)
    (hsorted : ends.Pairwise fun a b => f a.1 ≤ f b.1)
    (hcur : ∀ e ∈ ends, f curStartKey ≤ f e.1) {tombstones : List RangeTombstoneStack}
    {left : List (Bytes × ℕ)}
    (h : flushCurrentTombstones u nextStartKey curStartKey ends = (tombstones, left)) :
    Lined f (f curStartKey) (f nextStartKey) tombstones ∧
      (∀ k seq, f curStartKey ≤ k → k < f nextStartKey →
        ((∃ st ∈ tombstones, LiesOver f st k seq) ↔ ∃ e ∈ ends, e.2 = seq ∧ k < f e.1)) ∧
      left.Sublist ends ∧ (∀ e ∈ left, f nextStartKey ≤ f e.1) ∧
      ∀ e ∈ ends, f nextStartKey < f e.1 → e ∈ left := by
  induction ends generalizing curStartKey tombstones left with
  | nil =>
      cases h
      exact ⟨lined_nil _ _, fun k seq _ _ => by simp, .slnil, (fun _ h => nomatch h),
        (fun _ h => nomatch h)⟩
  | cons e ends ih =>
      obtain ⟨hle, hsorted'⟩ := List.pairwise_cons.mp hsorted
      have hcur' := hcur e List.mem_cons_self
      rw [flushCurrentTombstones] at h
      simp only [hf, compare_eq_iff_eq, ne_eq, compare_gt_iff_gt, not_lt] at h
      by_cases heq : f curStartKey = f e.1
      · rw [if_pos heq] at h
        obtain ⟨hlined, hover, hsub, habove, hrest⟩ := ih curStartKey hlt hsorted'
          (fun d hd => hcur d (List.mem_cons_of_mem _ hd)) h
        refine ⟨hlined, fun k seq hk hk' => ?_, hsub.cons _, habove, fun d hd hnext => ?_⟩
        · rw [hover k seq hk hk', List.exists_mem_cons_iff]
          refine ⟨Or.inr, fun hor => hor.resolve_left ?_⟩
          rintro ⟨-, hke⟩
          exact absurd (heq ▸ hke) (not_lt.mpr hk)
        · rcases List.mem_cons.mp hd with rfl | hd
          · exact absurd (hlt.trans hnext) (heq ▸ lt_irrefl _)
          · exact hrest d hd hnext
      · have hlt' : f curStartKey < f e.1 := lt_of_le_of_ne hcur' heq
        have hreach : ∀ d ∈ e :: ends, f e.1 ≤ f d.1 := by
          intro d hd
          rcases List.mem_cons.mp hd with rfl | hd
          · exact le_refl _
          · exact hle d hd
        rw [if_neg heq] at h
        by_cases hnext : f nextStartKey ≤ f e.1
        · rw [if_pos hnext] at h
          cases h
          refine ⟨lined_singleton hlt _, fun k seq hk hk' => ?_, List.Sublist.refl _,
            fun d hd => hnext.trans (hreach d hd), fun d hd _ => hd⟩
          constructor
          · rintro ⟨st, hst, -, -, hseq⟩
            obtain rfl := List.mem_singleton.mp hst
            obtain ⟨d, hd, hds⟩ := mem_seqnumsToFlush.mp hseq
            exact ⟨d, hd, hds, hk'.trans_le (hnext.trans (hreach d hd))⟩
          · rintro ⟨d, hd, hds, -⟩
            exact ⟨_, List.mem_singleton.mpr rfl, hk, hk', mem_seqnumsToFlush.mpr ⟨d, hd, hds⟩⟩
        · rw [if_neg hnext] at h
          obtain ⟨frags, rest, hflush⟩ : ∃ frags rest,
            flushCurrentTombstones u nextStartKey e.1 ends = (frags, rest) := ⟨_, _, rfl⟩
          rw [hflush] at h
          cases h
          obtain ⟨hlined, hover, hsub, habove, hrest⟩ := ih e.1 (not_le.mp hnext) hsorted'
            (fun d hd => hle d hd) hflush
          refine ⟨(lined_singleton hlt' _).append hlined hlt'.le (not_le.mp hnext).le,
            fun k seq hk hk' => ?_, hsub.cons _, habove, fun d hd hd' => ?_⟩
          · rw [List.exists_mem_cons_iff]
            rcases lt_or_ge k (f e.1) with hke | hke
            · constructor
              · rintro (⟨-, -, hseq⟩ | ⟨st, hst, hstart, -⟩)
                · obtain ⟨d, hd, hds⟩ := mem_seqnumsToFlush.mp hseq
                  exact ⟨d, hd, hds, hke.trans_le (hreach d hd)⟩
                · exact absurd ((hlined.within st hst).1.trans hstart) (not_le.mpr hke)
              · rintro ⟨d, hd, hds, -⟩
                exact Or.inl ⟨hk, hke, mem_seqnumsToFlush.mpr ⟨d, hd, hds⟩⟩
            · rw [hover k seq hke hk', List.exists_mem_cons_iff]
              constructor
              · rintro (⟨-, hend, -⟩ | hex)
                · exact absurd hend (not_lt.mpr hke)
                · exact Or.inr hex
              · rintro (⟨-, hend⟩ | hex)
                · exact absurd hend (not_lt.mpr hke)
                · exact Or.inr hex
          · rcases List.mem_cons.mp hd with rfl | hd
            · exact absurd hd'.le hnext
            · exact hrest d hd hd'

theorem le_of_compareVersions {x y : Bytes × ℕ} (h : compareVersions u x y = .lt) :
    f x.1 ≤ f y.1 := by
  rw [compareVersions, Ordering.then_eq_lt, hf, compare_lt_iff_lt, compare_eq_iff_eq] at h
  rcases h with h | ⟨h, -⟩
  · exact h.le
  · exact h.le

/-- With one more end key, what is reached by those from before and by the new one. -/
theorem exists_mem_emplace {ends : List (Bytes × ℕ)} {e : Bytes × ℕ} {k : κ} {seq : ℕ} :
    (∃ d ∈ emplace u ends e, d.2 = seq ∧ k < f d.1) ↔
      (e.2 = seq ∧ k < f e.1) ∨ ∃ d ∈ ends, d.2 = seq ∧ k < f d.1 := by
  rw [emplace]
  cases hins : OrderedCursor.insert (compareVersions u) e ends with
  | some l =>
      have hmem : ∀ d, d ∈ l ↔ d ∈ e :: ends := fun d => (OrderedCursor.insert_perm hins).mem_iff
      simp only [Option.getD_some, hmem, List.exists_mem_cons_iff]
  | none =>
      obtain ⟨d, hd, heq⟩ := OrderedCursor.exists_of_insert_eq_none hins
      rw [compareVersions, Ordering.then_eq_eq, hf, compare_eq_iff_eq, Nat.compare_eq_eq] at heq
      rw [Option.getD_none]
      refine ⟨Or.inr, fun h => h.elim (fun h => ⟨d, hd, ?_, ?_⟩) id⟩
      · exact heq.2.trans h.1
      · exact heq.1 ▸ h.2

omit hf in
theorem sorted_emplace {ends : List (Bytes × ℕ)} (e : Bytes × ℕ)
    (h : ends.Pairwise fun a b => compareVersions u a b = .lt) :
    (emplace u ends e).Pairwise fun a b => compareVersions u a b = .lt := by
  rw [emplace]
  cases hins : OrderedCursor.insert (compareVersions u) e ends with
  | some l => exact OrderedCursor.insert_sorted h hins
  | none => exact h

/-- Some tombstone of this sequence number reaches over `k`. -/
def Reaches (f : Bytes → κ) (ts : List RangeTombstone) (k : κ) (seq : ℕ) : Prop :=
  ∃ t ∈ ts, t.seq = seq ∧ f t.startKey ≤ k ∧ k < f t.endKey

/-- Where the loop of `FragmentTombstones` stands after `ts`: in front of the current start key
the fragments lie where the tombstones do, from there on the pending end keys do. -/
structure Fragments (u : Comparator) (f : Bytes → κ) (ts : List RangeTombstone)
    (st : Fragmenting) : Prop where
  sorted : st.curEndKeys.Pairwise fun a b => compareVersions u a b = .lt
  above : ∀ e ∈ st.curEndKeys, f st.curStartKey ≤ f e.1
  pending : ∃ e ∈ st.curEndKeys, f st.curStartKey < f e.1
  cur_mem : ∃ t ∈ ts, f t.startKey = f st.curStartKey
  lined : ∃ low, low ≤ f st.curStartKey ∧ Lined f low (f st.curStartKey) st.tombstones
  below : ∀ k seq, k < f st.curStartKey →
    ((∃ s ∈ st.tombstones, LiesOver f s k seq) ↔ Reaches f ts k seq)
  from_start : ∀ k seq, f st.curStartKey ≤ k →
    ((∃ e ∈ st.curEndKeys, e.2 = seq ∧ k < f e.1) ↔ Reaches f ts k seq)

omit hf in
theorem reaches_append {ts : List RangeTombstone} {t : RangeTombstone} {k : κ} {seq : ℕ} :
    Reaches f (ts ++ [t]) k seq ↔
      Reaches f ts k seq ∨ (t.seq = seq ∧ f t.startKey ≤ k ∧ k < f t.endKey) := by
  simp only [Reaches, List.mem_append, List.mem_singleton, or_and_right, exists_or,
    exists_eq_left]

omit hf in
theorem mem_emplace {ends : List (Bytes × ℕ)} {e d : Bytes × ℕ} (h : d ∈ emplace u ends e) :
    d = e ∨ d ∈ ends := by
  rw [emplace] at h
  cases hins : OrderedCursor.insert (compareVersions u) e ends with
  | some l =>
      rw [hins, Option.getD_some] at h
      exact List.mem_cons.mp ((OrderedCursor.insert_perm hins).mem_iff.mp h)
  | none =>
      rw [hins, Option.getD_none] at h
      exact Or.inr h

omit hf in
theorem fragments_first {t : RangeTombstone} (ht : f t.startKey < f t.endKey) :
    Fragments u f [t] (addTombstone u ⟨[], [], []⟩ t) := by
  have hst : addTombstone u ⟨[], [], []⟩ t = ⟨t.startKey, [(t.endKey, t.seq)], []⟩ := rfl
  have hreach : ∀ k seq, Reaches f [t] k seq ↔
      t.seq = seq ∧ f t.startKey ≤ k ∧ k < f t.endKey := by
    intro k seq
    simp [Reaches]
  rw [hst]
  refine ⟨List.pairwise_singleton _ _, ?_, ⟨_, List.mem_singleton.mpr rfl, ht⟩,
    ⟨t, List.mem_singleton.mpr rfl, rfl⟩, ⟨_, le_refl _, lined_nil _ _⟩, ?_, ?_⟩
  · intro e he
    obtain rfl := List.mem_singleton.mp he
    exact ht.le
  · intro k seq hk
    rw [hreach]
    constructor
    · rintro ⟨s, hs, -⟩
      cases hs
    · rintro ⟨-, hle, -⟩
      exact absurd hle (not_le.mpr hk)
  · intro k seq hk
    rw [hreach]
    constructor
    · rintro ⟨e, he, hes⟩
      obtain rfl := List.mem_singleton.mp he
      exact ⟨hes.1, hk, hes.2⟩
    · rintro ⟨hseq, -, hend⟩
      exact ⟨_, List.mem_singleton.mpr rfl, hseq, hend⟩

/-- A tombstone joins the pending end keys once everything in front of it is flushed. -/
theorem fragments_emplace {ts : List RangeTombstone} {t : RangeTombstone}
    (ht : f t.startKey < f t.endKey) {ends : List (Bytes × ℕ)} {out : List RangeTombstoneStack}
    (hsorted : ends.Pairwise fun a b => compareVersions u a b = .lt)
    (habove : ∀ e ∈ ends, f t.startKey ≤ f e.1)
    (hlined : ∃ low, low ≤ f t.startKey ∧ Lined f low (f t.startKey) out)
    (hbelow : ∀ k seq, k < f t.startKey →
      ((∃ s ∈ out, LiesOver f s k seq) ↔ Reaches f ts k seq))
    (hfrom : ∀ k seq, f t.startKey ≤ k →
      ((∃ e ∈ ends, e.2 = seq ∧ k < f e.1) ↔ Reaches f ts k seq)) :
    Fragments u f (ts ++ [t]) ⟨t.startKey, emplace u ends (t.endKey, t.seq), out⟩ := by
  refine ⟨sorted_emplace _ hsorted, ?_, ?_, ?_, hlined, ?_, ?_⟩
  · intro e he
    rcases mem_emplace he with rfl | he
    · exact ht.le
    · exact habove e he
  · obtain ⟨e, he, -, hlt⟩ := (exists_mem_emplace hf (e := (t.endKey, t.seq))
      (k := f t.startKey)).mpr (Or.inl ⟨rfl, ht⟩)
    exact ⟨e, he, hlt⟩
  · exact ⟨t, List.mem_append_right _ (List.mem_singleton.mpr rfl), rfl⟩
  · intro k seq hk
    rw [hbelow k seq hk, reaches_append]
    refine ⟨Or.inl, fun hor => hor.resolve_right ?_⟩
    rintro ⟨-, hstart, -⟩
    exact absurd hstart (not_le.mpr hk)
  · intro k seq hk
    dsimp only at hk ⊢
    rw [exists_mem_emplace hf, hfrom k seq hk, reaches_append, or_comm]
    simp only [hk, true_and]

/-- One more tombstone, which starts where the last one did or later. -/
theorem Fragments.add {ts : List RangeTombstone} {st : Fragmenting} (h : Fragments u f ts st)
    {t : RangeTombstone} (ht : f t.startKey < f t.endKey)
    (hlast : ∀ t' ∈ ts, f t'.startKey ≤ f t.startKey) :
    Fragments u f (ts ++ [t]) (addTombstone u st t) := by
  obtain ⟨d, hd, -⟩ := h.pending
  obtain ⟨t', ht', hcur⟩ := h.cur_mem
  obtain ⟨low, hlow, hlined⟩ := h.lined
  have hle : f st.curStartKey ≤ f t.startKey := hcur ▸ hlast t' ht'
  rw [addTombstone]
  by_cases heq : f st.curStartKey = f t.startKey
  · have hsame : ¬(st.curEndKeys ≠ [] ∧ u.compare st.curStartKey t.startKey ≠ .eq) := by
      rintro ⟨-, hne⟩
      rw [hf] at hne
      exact hne (compare_eq_iff_eq.mpr heq)
    rw [if_neg hsame]
    refine fragments_emplace hf ht h.sorted (fun e he => heq ▸ h.above e he)
      ⟨low, heq ▸ hlow, heq ▸ hlined⟩ (fun k seq hk => h.below k seq (heq ▸ hk))
      fun k seq hk => h.from_start k seq (heq ▸ hk)
  · have hlt : f st.curStartKey < f t.startKey := lt_of_le_of_ne hle heq
    have hchanged : st.curEndKeys ≠ [] ∧ u.compare st.curStartKey t.startKey ≠ .eq := by
      refine ⟨List.ne_nil_of_mem hd, ?_⟩
      rw [hf]
      exact fun hc => heq (compare_eq_iff_eq.mp hc)
    obtain ⟨frags, left, hflush⟩ : ∃ frags left, flushCurrentTombstones u t.startKey
      st.curStartKey st.curEndKeys = (frags, left) := ⟨_, _, rfl⟩
    obtain ⟨hfrags, hover, hsub, habove, hleft⟩ := flushCurrentTombstones_spec hf t.startKey
      st.curEndKeys st.curStartKey hlt (h.sorted.imp (le_of_compareVersions hf)) h.above hflush
    rw [if_pos hchanged, hflush]
    refine fragments_emplace hf ht (h.sorted.sublist hsub) habove
      ⟨low, hlow.trans hle, hlined.append hfrags hlow hle⟩ (fun k seq hk => ?_) fun k seq hk => ?_
    · rcases lt_or_ge k (f st.curStartKey) with hk' | hk'
      · rw [← h.below k seq hk']
        constructor
        · rintro ⟨s, hs, hstart, hend⟩
          rcases List.mem_append.mp hs with hs | hs
          · exact ⟨s, hs, hstart, hend⟩
          · exact absurd ((hfrags.within s hs).1.trans hstart) (not_le.mpr hk')
        · rintro ⟨s, hs, hlies⟩
          exact ⟨s, List.mem_append_left _ hs, hlies⟩
      · rw [← h.from_start k seq hk', ← hover k seq hk' hk]
        constructor
        · rintro ⟨s, hs, hstart, hend, hseq⟩
          rcases List.mem_append.mp hs with hs | hs
          · exact absurd (hend.trans_le (hlined.within s hs).2.2) (not_lt.mpr hk')
          · exact ⟨s, hs, hstart, hend, hseq⟩
        · rintro ⟨s, hs, hlies⟩
          exact ⟨s, List.mem_append_right _ hs, hlies⟩
    · rw [← h.from_start k seq (hle.trans hk)]
      constructor
      · rintro ⟨e, he, hend⟩
        exact ⟨e, hsub.subset he, hend⟩
      · rintro ⟨e, he, hseq, hend⟩
        exact ⟨e, hleft e he (hk.trans_lt hend), hseq, hend⟩

/-- The loop over a sorted list, by induction on it from its end. -/
theorem fragments_foldl {ts : List RangeTombstone}
    (hvalid : ∀ t ∈ ts, f t.startKey < f t.endKey)
    (hsorted : ts.Pairwise fun a b => f a.startKey ≤ f b.startKey) (hne : ts ≠ []) :
    Fragments u f ts (ts.foldl (addTombstone u) ⟨[], [], []⟩) := by
  induction ts using List.reverseRecOn with
  | nil => exact absurd rfl hne
  | append_singleton ts t ih =>
      obtain ⟨hsorted', -, hlast⟩ := List.pairwise_append.mp hsorted
      have ht := hvalid t (List.mem_append_right _ (List.mem_singleton.mpr rfl))
      rw [List.foldl_append, List.foldl_cons, List.foldl_nil]
      by_cases hnil : ts = []
      · subst hnil
        exact fragments_first ht
      · exact (ih (fun t' ht' => hvalid t' (List.mem_append_left _ ht')) hsorted' hnil).add hf ht
          fun t' ht' => hlast t' ht' t (List.mem_singleton.mpr rfl)

/-- The fragments of a sorted list lie exactly where its tombstones do. -/
theorem fragmentTombstones_spec {ts : List RangeTombstone}
    (hvalid : ∀ t ∈ ts, f t.startKey < f t.endKey)
    (hsorted : ts.Pairwise fun a b => f a.startKey ≤ f b.startKey) :
    (∃ low high, Lined f low high (fragmentTombstones u ts)) ∧ ∀ k seq,
      (∃ st ∈ fragmentTombstones u ts, LiesOver f st k seq) ↔ Reaches f ts k seq := by
  by_cases hnil : ts = []
  · subst hnil
    refine ⟨⟨f [], f [], lined_nil _ _⟩, fun k seq => ?_⟩
    simp [fragmentTombstones, Reaches]
  obtain ⟨st, hst⟩ : ∃ st, st = ts.foldl (addTombstone u) ⟨[], [], []⟩ := ⟨_, rfl⟩
  have h := fragments_foldl hf hvalid hsorted hnil
  rw [← hst] at h
  obtain ⟨d, hd, hcurd⟩ := h.pending
  obtain ⟨low, hlow, hlined⟩ := h.lined
  obtain ⟨init, last, hends⟩ : ∃ init last, st.curEndKeys = init ++ [last] :=
    ⟨_, _, (List.dropLast_concat_getLast (List.ne_nil_of_mem hd)).symm⟩
  have hends' := h.sorted.imp (le_of_compareVersions hf)
  have hmax : ∀ e ∈ st.curEndKeys, f e.1 ≤ f last.1 := by
    intro e he
    rw [hends] at he hends'
    rcases List.mem_append.mp he with he | he
    · exact (List.pairwise_append.mp hends').2.2 e he last (List.mem_singleton.mpr rfl)
    · rw [List.mem_singleton.mp he]
  obtain ⟨frags, left, hflush⟩ : ∃ frags left, flushCurrentTombstones u last.1
    st.curStartKey st.curEndKeys = (frags, left) := ⟨_, _, rfl⟩
  have hlast : f st.curStartKey < f last.1 := hcurd.trans_le (hmax d hd)
  obtain ⟨hfrags, hover, -, -, -⟩ := flushCurrentTombstones_spec hf last.1 st.curEndKeys
    st.curStartKey hlast hends' h.above hflush
  have hout : fragmentTombstones u ts = st.tombstones ++ frags := by
    have hget : st.curEndKeys.getLast? = some last := by rw [hends, List.getLast?_concat]
    simp only [fragmentTombstones, ← hst, hget, hflush]
  rw [hout]
  refine ⟨⟨low, f last.1, hlined.append hfrags hlow hlast.le⟩, fun k seq => ?_⟩
  rcases lt_or_ge k (f st.curStartKey) with hk | hk
  · rw [← h.below k seq hk]
    constructor
    · rintro ⟨s, hs, hstart, hend⟩
      rcases List.mem_append.mp hs with hs | hs
      · exact ⟨s, hs, hstart, hend⟩
      · exact absurd ((hfrags.within s hs).1.trans hstart) (not_le.mpr hk)
    · rintro ⟨s, hs, hlies⟩
      exact ⟨s, List.mem_append_left _ hs, hlies⟩
  · rw [← h.from_start k seq hk]
    constructor
    · rintro ⟨s, hs, hstart, hend, hseq⟩
      rcases List.mem_append.mp hs with hs | hs
      · exact absurd (hend.trans_le (hlined.within s hs).2.2) (not_lt.mpr hk)
      · exact (hover k seq hk (hend.trans_le (hfrags.within s hs).2.2)).mp
          ⟨s, hs, hstart, hend, hseq⟩
    · rintro ⟨e, he, hseq, hend⟩
      obtain ⟨s, hs, hlies⟩ := (hover k seq hk (hend.trans_le (hmax e he))).mpr
        ⟨e, he, hseq, hend⟩
      exact ⟨s, List.mem_append_right _ hs, hlies⟩

end Cover

/-- Of numbers that go down, the first one within a bound is the largest. -/
theorem le_of_find?_eq_some {seqs : List ℕ} (h : seqs.Pairwise (· ≥ ·)) {bound s s' : ℕ}
    (hfind : seqs.find? (fun seq => seq ≤ bound) = some s) (hs' : s' ∈ seqs) (hle : s' ≤ bound) :
    s' ≤ s := by
  induction seqs with
  | nil => cases hs'
  | cons a seqs ih =>
      obtain ⟨ha, h⟩ := List.pairwise_cons.mp h
      by_cases hab : a ≤ bound
      · rw [List.find?_cons_of_pos (by simpa using hab)] at hfind
        obtain rfl := Option.some.inj hfind
        rcases List.mem_cons.mp hs' with rfl | hs'
        · exact le_refl _
        · exact ha s' hs'
      · rw [List.find?_cons_of_neg (by simpa using hab)] at hfind
        rcases List.mem_cons.mp hs' with rfl | hs'
        · exact absurd hle hab
        · exact ih h hfind hs'

end FragmentedRangeTombstoneList

section MaxCovering

open FragmentedRangeTombstoneList

variable {u : Comparator} {ts : List RangeTombstone} {snapshot : ℕ} {key : Bytes}

theorem le_maxCovering {t : RangeTombstone} (ht : t ∈ ts) (hcovers : t.Covers u key)
    (hle : t.seq ≤ snapshot) : t.seq ≤ maxCovering u ts snapshot key := by
  refine List.le_max_of_le (List.mem_map.mpr ⟨t, ?_, rfl⟩) (le_refl _)
  exact List.mem_filter.mpr ⟨ht, decide_eq_true ⟨hcovers, hle⟩⟩

theorem maxCovering_le {n : ℕ}
    (h : ∀ t ∈ ts, t.Covers u key → t.seq ≤ snapshot → t.seq ≤ n) :
    maxCovering u ts snapshot key ≤ n := by
  refine List.max_le_of_forall_le _ _ fun x hx => ?_
  obtain ⟨t, ht, rfl⟩ := List.mem_map.mp hx
  obtain ⟨hmem, hp⟩ := List.mem_filter.mp ht
  obtain ⟨hcovers, hle⟩ := of_decide_eq_true hp
  exact h t hmem hcovers hle

theorem lt_maxCovering_iff {n : ℕ} :
    n < maxCovering u ts snapshot key ↔
      ∃ t ∈ ts, t.Covers u key ∧ t.seq ≤ snapshot ∧ n < t.seq := by
  constructor
  · intro h
    by_contra hnone
    refine absurd (maxCovering_le (u := u) fun t ht hcovers hle => ?_) (not_le.mpr h)
    exact not_lt.mp fun hlt => hnone ⟨t, ht, hcovers, hle, hlt⟩
  · rintro ⟨t, ht, hcovers, hle, hlt⟩
    exact hlt.trans_le (le_maxCovering ht hcovers hle)

theorem maxCovering_perm {ts' : List RangeTombstone} (h : ts.Perm ts') :
    maxCovering u ts snapshot key = maxCovering u ts' snapshot key := by
  apply le_antisymm
  · exact maxCovering_le fun t ht hcovers hle => le_maxCovering (h.mem_iff.mp ht) hcovers hle
  · exact maxCovering_le fun t ht hcovers hle => le_maxCovering (h.mem_iff.mpr ht) hcovers hle

/-- Looking up a key in the fragments finds the newest visible tombstone that covers it. -/
theorem maxCoveringTombstoneSeqnum_fragmentTombstones
    (hvalid : ∀ t ∈ ts, u.compare t.startKey t.endKey = .lt)
    (hsorted : ts.Pairwise fun a b => u.compare a.startKey b.startKey ≠ .gt) :
    maxCoveringTombstoneSeqnum u (fragmentTombstones u ts) snapshot key =
      maxCovering u ts snapshot key := by
  have := u.transCmp
  obtain ⟨κ, _, f, hf⟩ := OrderedCursor.exists_linearOrder u.compare
  simp only [hf, compare_lt_iff_lt, ne_eq, compare_gt_iff_gt, not_lt] at hvalid hsorted
  obtain ⟨⟨low, high, hlined⟩, hover⟩ := fragmentTombstones_spec hf hvalid hsorted
  have hcovers : ∀ t : RangeTombstone, t.Covers u key ↔
      f t.startKey ≤ f key ∧ f key < f t.endKey := by
    intro t
    simp only [RangeTombstone.Covers, hf, compare_lt_iff_lt, ne_eq, compare_gt_iff_gt, not_lt]
  have hreaches : ∀ seq, (∃ st ∈ fragmentTombstones u ts, LiesOver f st (f key) seq) ↔
      ∃ t ∈ ts, t.Covers u key ∧ t.seq = seq := by
    intro seq
    rw [hover]
    constructor
    · rintro ⟨t, ht, hseq, hstart, hend⟩
      exact ⟨t, ht, (hcovers t).mpr ⟨hstart, hend⟩, hseq⟩
    · rintro ⟨t, ht, hcov, hseq⟩
      obtain ⟨hstart, hend⟩ := (hcovers t).mp hcov
      exact ⟨t, ht, hseq, hstart, hend⟩
  rw [maxCoveringTombstoneSeqnum]
  cases hfind : (fragmentTombstones u ts).find? fun st => u.compare key st.endKey = .lt with
  | none =>
      refine (Nat.le_zero.mp (maxCovering_le fun t ht hcov _ => ?_)).symm
      obtain ⟨st, hst, -, hend, -⟩ := (hreaches t.seq).mpr ⟨t, ht, hcov, rfl⟩
      have hnot := List.find?_eq_none.mp hfind st hst
      rw [hf, decide_eq_true_iff, compare_lt_iff_lt] at hnot
      exact absurd hend hnot
  | some st =>
      obtain ⟨hend, before, after, hsplit, hbefore⟩ := List.find?_eq_some_iff_append.mp hfind
      rw [hf, decide_eq_true_iff, compare_lt_iff_lt] at hend
      have hst : st ∈ fragmentTombstones u ts := hsplit ▸ List.mem_append_right _ List.mem_cons_self
      -- no other fragment can lie over the key
      have honly : ∀ seq, (∃ s ∈ fragmentTombstones u ts, LiesOver f s (f key) seq) ↔
          LiesOver f st (f key) seq := by
        intro seq
        refine ⟨?_, fun h => ⟨st, hst, h⟩⟩
        rintro ⟨s, hs, hlies⟩
        have hbehind := hlined.behind
        rw [hsplit] at hs hbehind
        rcases List.mem_append.mp hs with hs | hs
        · have hnot := hbefore s hs
          rw [hf, Bool.not_eq_true', decide_eq_false_iff_not, compare_lt_iff_lt] at hnot
          exact absurd hlies.2.1 hnot
        · rcases List.mem_cons.mp hs with rfl | hs
          · exact hlies
          · have hle := (List.pairwise_cons.mp (List.pairwise_append.mp hbehind).2.1).1 s hs
            exact absurd (hend.trans_le (hle.trans hlies.1)) (lt_irrefl _)
      have hseqs := hlined.newestFirst st hst
      have hbound : ∀ {n : ℕ}, (∀ seq, LiesOver f st (f key) seq → seq ≤ snapshot → seq ≤ n) →
          maxCovering u ts snapshot key ≤ n := fun hn => maxCovering_le fun t ht hcov hle =>
        hn t.seq ((honly _).mp ((hreaches _).mpr ⟨t, ht, hcov, rfl⟩)) hle
      dsimp only
      cases hseq : st.seqs.find? fun seq => seq ≤ snapshot with
      | none =>
          refine (Nat.le_zero.mp (hbound fun seq hlies hle => ?_)).symm
          have hnot := List.find?_eq_none.mp hseq seq hlies.2.2
          exact absurd hle (by simpa using hnot)
      | some seq =>
          have hle : seq ≤ snapshot := by simpa using List.find?_some hseq
          have hmem := List.mem_of_find?_eq_some hseq
          dsimp only
          by_cases hstart : f st.startKey ≤ f key
          · rw [if_pos (by rw [hf, ne_eq, compare_gt_iff_gt, not_lt]; exact hstart)]
            obtain ⟨t, ht, hcov, hts⟩ :=
              (hreaches seq).mp ((honly seq).mpr ⟨hstart, hend, hmem⟩)
            refine le_antisymm (hts ▸ le_maxCovering ht hcov (hts ▸ hle)) (hbound ?_)
            exact fun seq' hlies hle' => le_of_find?_eq_some hseqs hseq hlies.2.2 hle'
          · rw [if_neg (by rw [hf, ne_eq, compare_gt_iff_gt, not_lt]; exact hstart)]
            exact (Nat.le_zero.mp (hbound fun seq' hlies _ => absurd hlies.1 hstart)).symm

end MaxCovering

namespace FragmentedRangeTombstoneList

variable {u : Comparator} {entries : List (Bytes × Bytes)}

theorem start_ne_gt_of_icmp {a b : Bytes} (h : icmp u a b ≠ .gt) :
    u.compare (extractUserKey a) (extractUserKey b) ≠ .gt := by
  intro hgt
  rw [icmp, hgt] at h
  exact h rfl

/-- The constructor fragments its entries in the order of their keys. -/
theorem create_eq_sorted (u : Comparator) (entries : List (Bytes × Bytes)) :
    ∃ l : List (Bytes × Bytes), l.Perm entries ∧
      (l.Pairwise fun a b => icmp u a.1 b.1 ≠ .gt) ∧
      create u entries = fragmentTombstones u (tombstonesOf l) := by
  have htrans : ∀ a b c : Bytes × Bytes, icmp u a.1 b.1 ≠ .gt → icmp u b.1 c.1 ≠ .gt →
      icmp u a.1 c.1 ≠ .gt := by
    intro a b c hab hbc
    apply Ordering.isLE_iff_ne_gt.mp
    exact Std.TransCmp.isLE_trans (Ordering.isLE_iff_ne_gt.mpr hab)
      (Ordering.isLE_iff_ne_gt.mpr hbc)
  unfold create
  dsimp only
  split_ifs with hchain
  · refine ⟨entries, List.Perm.refl _, ?_, rfl⟩
    have : IsTrans (Bytes × Bytes) fun a b => icmp u a.1 b.1 ≠ .gt := ⟨htrans⟩
    exact List.isChain_iff_pairwise.mp (hchain.imp fun a b hab => of_decide_eq_true hab)
  · refine ⟨_, List.mergeSort_perm _ _, ?_, rfl⟩
    have hsorted : (entries.mergeSort fun a b => decide (icmp u a.1 b.1 ≠ .gt)).Pairwise
        fun a b => decide (icmp u a.1 b.1 ≠ .gt) = true := by
      apply List.pairwise_mergeSort
      · intro a b c hab hbc
        exact decide_eq_true (htrans a b c (of_decide_eq_true hab) (of_decide_eq_true hbc))
      · intro a b
        rw [Bool.or_eq_true, decide_eq_true_iff, decide_eq_true_iff]
        by_cases hab : icmp u a.1 b.1 = .gt
        · right
          rw [Std.OrientedCmp.gt_iff_lt] at hab
          rw [hab]
          decide
        · exact Or.inl hab
    exact hsorted.imp fun hab => of_decide_eq_true hab

/-- Looking up a key in the list of any entries finds the newest visible tombstone over it. -/
theorem maxCoveringTombstoneSeqnum_create
    (hvalid : ∀ e ∈ entries, u.compare (extractUserKey e.1) e.2 = .lt) (snapshot : ℕ)
    (key : Bytes) :
    maxCoveringTombstoneSeqnum u (create u entries) snapshot key =
      maxCovering u (tombstonesOf entries) snapshot key := by
  obtain ⟨l, hperm, hsorted, hcreate⟩ := create_eq_sorted u entries
  rw [hcreate, maxCoveringTombstoneSeqnum_fragmentTombstones]
  · exact maxCovering_perm (hperm.map _)
  · intro t ht
    obtain ⟨e, he, rfl⟩ := List.mem_map.mp ht
    exact hvalid e (hperm.mem_iff.mp he)
  · rw [tombstonesOf, List.pairwise_map]
    exact hsorted.imp start_ne_gt_of_icmp

/-- No tombstone is lost as a whole. -/
theorem create_eq_nil_iff (hvalid : ∀ e ∈ entries, u.compare (extractUserKey e.1) e.2 = .lt) :
    create u entries = [] ↔ entries = [] := by
  constructor
  · intro hnil
    by_contra hne
    have := u.transCmp
    obtain ⟨κ, _, f, hf⟩ := OrderedCursor.exists_linearOrder u.compare
    obtain ⟨l, hperm, hsorted, hcreate⟩ := create_eq_sorted u entries
    obtain ⟨e, he⟩ := List.exists_mem_of_ne_nil _ hne
    have hvalid' : ∀ t ∈ tombstonesOf l, f t.startKey < f t.endKey := by
      intro t ht
      obtain ⟨e, he, rfl⟩ := List.mem_map.mp ht
      have hlt := hvalid e (hperm.mem_iff.mp he)
      rwa [hf, compare_lt_iff_lt] at hlt
    have hstarts : (tombstonesOf l).Pairwise fun a b => f a.startKey ≤ f b.startKey := by
      rw [tombstonesOf, List.pairwise_map]
      apply hsorted.imp
      intro a b hab
      have hle := start_ne_gt_of_icmp hab
      rwa [hf, ne_eq, compare_gt_iff_gt, not_lt] at hle
    obtain ⟨-, hover⟩ := fragmentTombstones_spec hf hvalid' hstarts
    have ht : ⟨extractUserKey e.1, e.2, extractInternalKeyFooter e.1 / 256⟩ ∈ tombstonesOf l :=
      List.mem_map_of_mem (hperm.mem_iff.mpr he)
    obtain ⟨st, hst, -⟩ := (hover _ _).mpr ⟨_, ht, rfl, le_refl _, hvalid' _ ht⟩
    rw [← hcreate, hnil] at hst
    cases hst
  · rintro rfl
    rfl

end FragmentedRangeTombstoneList

end Tweezer
