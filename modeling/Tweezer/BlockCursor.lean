import Tweezer.BlockScan
import Tweezer.OrderedCursor

/-!
# The block iterator as a cursor

Each operation of the iterator beside the reference cursor over the same keys. The two go
together step by step under a condition on the reference: it names the positions that do
not count as valid, the searches that never leave their loop and the reads behind the table.
-/

namespace Tweezer

open OrderedCursor

def ikeyCompare (u : Comparator) (a b : InternalKey) : Ordering := icmp u a.val b.val

instance (u : Comparator) : Std.TransCmp (ikeyCompare u) :=
  transCmp_comap (transCmp_icmp u) Subtype.val

def keysOf (es : List (InternalKey × Bytes)) : List InternalKey := es.map Prod.fst

theorem getElem?_keysOf {es : List (InternalKey × Bytes)} {i : ℕ} {k : InternalKey} :
    (keysOf es)[i]? = some k ↔ ∃ v, es[i]? = some (k, v) := by
  rw [keysOf, List.getElem?_map, Option.map_eq_some_iff]
  constructor
  · rintro ⟨⟨_, v⟩, he, rfl⟩
    exact ⟨v, he⟩
  · rintro ⟨v, he⟩
    exact ⟨_, he, rfl⟩

theorem length_keysOf (es : List (InternalKey × Bytes)) : (keysOf es).length = es.length :=
  List.length_map _

theorem BlockEntries.sorted_keysOf {u : Comparator} (es : BlockEntries u) :
    (keysOf es.entries).Pairwise (fun a b => ikeyCompare u a b = .lt) :=
  List.pairwise_map.mpr es.sorted

namespace EncryptedDataBlockIter

/-- A call of the iterator, its loops limited to `fuel` turns. -/
def call (u : Comparator) (fuel : ℕ) (it : EncryptedDataBlockIter) :
    Op InternalKey → Outcome EncryptedDataBlockIter
  | .seekToFirst => it.seekToFirst
  | .seekToLast => it.seekToLast
  | .seek t => it.seek u fuel t.val
  | .seekForPrev t => it.seekForPrev u fuel t.val
  | .next => it.next
  | .prev => it.prev

/-- The iterator shows what the reference cursor shows. -/
def Agrees (it : EncryptedDataBlockIter) (keys : List InternalKey) (pos : Option ℕ) : Prop :=
  it.valid = pos.isSome ∧ ∀ i ∈ pos, ∀ k ∈ keys[i]?, it.key = k.val

/-- Every call ends without leaving the table and agrees with the reference cursor. -/
def Follows (u : Comparator) (keys : List InternalKey) :
    EncryptedDataBlockIter → Option ℕ → List (Op InternalKey) → Prop
  | _, _, [] => True
  | it, pos, op :: ops =>
      ∃ fuel it', it.call u fuel op = .ok it' ∧
        it'.Agrees keys (step (ikeyCompare u) keys pos op) ∧
        Follows u keys it' (step (ikeyCompare u) keys pos op) ops

end EncryptedDataBlockIter

/-- `Next` and `Prev` are called only where the reference cursor has a position. -/
def CallsAllowed (u : Comparator) (keys : List InternalKey) :
    Option ℕ → List (Op InternalKey) → Prop
  | _, [] => True
  | pos, op :: ops =>
      op.Allowed pos ∧ CallsAllowed u keys (step (ikeyCompare u) keys pos op) ops

instance decidableCallsAllowed (u : Comparator) (keys : List InternalKey) :
    ∀ pos ops, Decidable (CallsAllowed u keys pos ops)
  | _, [] => inferInstanceAs (Decidable True)
  | pos, op :: ops =>
      have := decidableCallsAllowed u keys (step (ikeyCompare u) keys pos op) ops
      inferInstanceAs (Decidable (_ ∧ _))

/-- The condition on one call, in terms of the reference cursor's position before it. -/
def CallFollows (u : Comparator) (es : List (InternalKey × Bytes)) (pos : Option ℕ) :
    Op InternalKey → Prop
  | .seekToFirst => Shown es 0
  | .seekToLast => False
  | .seek t => ∀ j ∈ seek (ikeyCompare u) (keysOf es) t, Shown es j
  | .seekForPrev t => ∃ j ∈ seek (ikeyCompare u) (keysOf es) t, Shown es j ∧
      (j = 0 → ∀ k ∈ (keysOf es)[0]?, ikeyCompare u k t ≠ .gt)
  | .next => ∀ i ∈ pos, if i + 1 < es.length then Shown es (i + 1) else lastSize es ≤ 20000
  | .prev => ∀ i ∈ pos, 0 < i

instance decidableCallFollows (u : Comparator) (es : List (InternalKey × Bytes)) (pos : Option ℕ)
    (op : Op InternalKey) : Decidable (CallFollows u es pos op) :=
  match op with
  | .seekToFirst => inferInstanceAs (Decidable (Shown es 0))
  | .seekToLast => inferInstanceAs (Decidable False)
  | .seek _ => inferInstanceAs (Decidable (∀ j ∈ _, _))
  | .seekForPrev _ => inferInstanceAs (Decidable (∃ j ∈ _, _ ∧ (_ → ∀ k ∈ _, _)))
  | .next => inferInstanceAs (Decidable (∀ i ∈ _, _))
  | .prev => inferInstanceAs (Decidable (∀ i ∈ _, _))

def CallsFollow (u : Comparator) (es : List (InternalKey × Bytes)) :
    Option ℕ → List (Op InternalKey) → Prop
  | _, [] => True
  | pos, op :: ops =>
      CallFollows u es pos op ∧
        CallsFollow u es (step (ikeyCompare u) (keysOf es) pos op) ops

instance decidableCallsFollow (u : Comparator) (es : List (InternalKey × Bytes)) :
    ∀ pos ops, Decidable (CallsFollow u es pos ops)
  | _, [] => inferInstanceAs (Decidable True)
  | pos, op :: ops =>
      have := decidableCallsFollow u es (step (ikeyCompare u) (keysOf es) pos op) ops
      inferInstanceAs (Decidable (_ ∧ _))

namespace EncryptedDataBlockIter

variable {u : Comparator} {it it' : EncryptedDataBlockIter} {data : Bytes} {key : Key}
  {es : List (InternalKey × Bytes)} {i j : ℕ} {t : InternalKey}

theorem compare_self (u : Comparator) (k : Bytes) : icmp u k k = .eq :=
  Std.ReflCmp.compare_self

/-- The first loop of `SeekImpl` compares each key with itself, so it always ends in front
of the first entry. -/
theorem narrow_settles (h : it.Over data key es) {n : ℕ} (hn : n ≤ es.length)
    (hpos : 0 < es.length) :
    ∃ it', Outcome.Settles (fun fuel => it.narrow u fuel 0 n) it' ∧ it'.Over data key es ∧
      it'.currentIndex = -1 := by
  induction n using Nat.strong_induction_on generalizing it with
  | _ n ih =>
      have hmiddle : (0 + (n : ℤ)).tdiv 2 = ((n / 2 : ℕ) : ℤ) := by
        rw [Int.zero_add]
        rfl
      have he := List.getElem?_eq_getElem (show n / 2 < es.length by omega)
      have hentry := entryAt_of_getElem? h he
      obtain ⟨it₁, hit⟩ : ∃ it₁, it₁ = ({ it with
          currentIndex := ((n / 2 : ℕ) : ℤ), rawKey := es[n / 2].1.val } :
        EncryptedDataBlockIter) := ⟨_, rfl⟩
      have hover : it₁.Over data key es := by
        rw [hit]
        exact h.of_eq rfl rfl rfl rfl rfl rfl
      have hself : it₁.compareCurrentKey u es[n / 2].1.val = .eq := by
        rw [compareCurrentKey_eq hover, hit]
        exact compare_self u _
      have hturn : ∀ fuel, it.narrow u (fuel + 1) 0 n =
          if ((n / 2 : ℕ) : ℤ) - 0 ≤ 15 then
            .ok { it with currentIndex := 0 - 1, rawKey := es[n / 2].1.val }
          else it₁.narrow u fuel 0 ((n / 2 : ℕ) - 1) := by
        intro fuel
        rw [narrow, hmiddle, hentry, Outcome.ok_bind]
        dsimp only
        rw [← hit, hself, if_neg (by decide)]
      by_cases hsmall : n / 2 ≤ 15
      · refine ⟨{ it with currentIndex := 0 - 1, rawKey := es[n / 2].1.val },
          Outcome.settles_stop rfl ?_, h.of_eq rfl rfl rfl rfl rfl rfl, rfl⟩
        intro fuel
        rw [hturn, if_pos (by omega)]
      · obtain ⟨it', hs, ho, hi⟩ := ih (n / 2 - 1) (by omega) hover (by omega)
        refine ⟨it', Outcome.settles_succ rfl ?_ hs, ho, hi⟩
        intro fuel
        rw [hturn, if_neg (by omega), Nat.cast_sub (by omega), Nat.cast_one]

theorem compareCurrentKey_at (h : it.Over data key es) (ha : it.At es i) {k : InternalKey}
    (hk : (keysOf es)[i]? = some k) (t : InternalKey) :
    it.compareCurrentKey u t.val = ikeyCompare u k t := by
  obtain ⟨v, he⟩ := getElem?_keysOf.mp hk
  rw [compareCurrentKey_eq h, ha.rawKey_eq _ he]
  rfl

/-- A turn of the second loop of `SeekImpl`, at an entry below the target. -/
theorem advance_turn (h : it.Over data key es) (ha : it.At es i) (hi : i + 1 < es.length)
    (hlt : ∀ k ∈ (keysOf es)[i]?, ikeyCompare u k t = .lt) :
    ∃ it₁ : EncryptedDataBlockIter, it₁.Over data key es ∧ it₁.At es (i + 1) ∧
      ∀ fuel, it.advance u t.val (fuel + 1) = it₁.advance u t.val fuel := by
  have hvalid : it.valid = true := (valid_iff h ha (by omega)).mpr (Or.inl hi)
  obtain ⟨it₁, hnext, ho, ha₁⟩ := nextImpl_at h hi (by
    rw [ha.index_eq]
    omega)
  have hk := List.getElem?_eq_getElem (show i < (keysOf es).length by
    rw [length_keysOf]
    omega)
  have hcmp : it.compareCurrentKey u t.val = .lt := by
    rw [compareCurrentKey_at h ha hk]
    exact hlt _ hk
  have hindex : it.currentIndex < (it.keyOffsetMap.length : ℤ) := by
    rw [ha.index_eq, h.length_table]
    omega
  refine ⟨it₁, ho, ha₁, ?_⟩
  intro fuel
  rw [advance, if_pos ⟨hindex, hvalid⟩, if_neg (by simp [hcmp]), hnext, Outcome.ok_bind]

/-- The loop stops at the first entry that is not below the target. -/
theorem advance_to (n : ℕ) (h : it.Over data key es) (ha : it.At es i)
    (hs : OrderedCursor.seek (ikeyCompare u) (keysOf es) t = some j) (hn : i + n = j) :
    ∃ it', Outcome.Settles (fun fuel => it.advance u t.val fuel) it' ∧ it'.Over data key es ∧
      it'.At es j := by
  obtain ⟨⟨k, hk, hkt⟩, hbefore⟩ := seek_eq_some hs
  have hj : j < es.length := by
    rw [← length_keysOf]
    exact (List.getElem?_eq_some_iff.mp hk).1
  induction n generalizing it i with
  | zero =>
      obtain rfl : i = j := hn
      refine ⟨it, Outcome.settles_stop rfl ?_, h, ha⟩
      intro fuel
      have hcmp : it.compareCurrentKey u t.val ≠ .lt := by
        rw [compareCurrentKey_at h ha hk]
        exact hkt
      rw [advance, if_pos hcmp]
      exact ite_self _
  | succ n ih =>
      obtain ⟨it₁, ho, ha₁, hturn⟩ := advance_turn (u := u) (t := t) h ha (by omega)
        fun k hk => hbefore i k (by omega) hk
      obtain ⟨it', hsettles, hit'⟩ := ih ho ha₁ (by omega)
      exact ⟨it', Outcome.settles_succ rfl hturn hsettles, hit'⟩

/-- At the last entry, and below the target, the loop adds to the offset until the iterator
no longer counts as valid. -/
theorem advance_past_last (n : ℕ) (h : it.Over data key es)
    (hindex : it.currentIndex = (es.length : ℤ) - 1)
    (hlt : it.compareCurrentKey u t.val = .lt) (hn : it.restarts < it.current + n) :
    ∃ it', Outcome.Settles (fun fuel => it.advance u t.val fuel) it' ∧ it'.Over data key es ∧
      it'.valid = false := by
  induction n generalizing it with
  | zero =>
      have hinvalid : it.valid = false := decide_eq_false (by omega)
      refine ⟨it, Outcome.settles_stop rfl ?_, h, hinvalid⟩
      intro fuel
      rw [advance, if_neg (by simp [hinvalid])]
  | succ n ih =>
      by_cases hvalid : it.valid = true
      · have hcurrent : it.current < it.restarts := of_decide_eq_true hvalid
        have hsmall := h.small
        have hrestarts := h.restarts_eq
        have hu : u32 (it.current + 20000) = it.current + 20000 := u32_of_lt (by omega)
        obtain ⟨it₁, hit⟩ : ∃ it₁, it₁ = ({ it with current := u32 (it.current + 20000) } :
            EncryptedDataBlockIter) := ⟨_, rfl⟩
        have hover : it₁.Over data key es := by
          rw [hit]
          exact h.of_eq rfl rfl rfl rfl rfl rfl
        have hcurrent₁ : it₁.current = u32 (it.current + 20000) := by rw [hit]
        have hrestarts₁ := hover.restarts_eq
        have hlt₁ : it₁.compareCurrentKey u t.val = .lt := by
          rw [compareCurrentKey_eq h] at hlt
          rw [compareCurrentKey_eq hover, hit]
          exact hlt
        obtain ⟨it', hsettles, hit'⟩ := ih hover (by rw [hit]; exact hindex) hlt₁ (by omega)
        refine ⟨it', Outcome.settles_succ rfl ?_ hsettles, hit'⟩
        intro fuel
        have hbound : it.currentIndex < (it.keyOffsetMap.length : ℤ) := by
          rw [hindex, h.length_table]
          omega
        rw [advance, if_pos ⟨hbound, hvalid⟩, if_neg (by simp [hlt]), nextImpl_last h hindex,
          ← hit, Outcome.ok_bind]
      · refine ⟨it, Outcome.settles_stop rfl ?_, h, by simpa using hvalid⟩
        intro fuel
        rw [advance, if_neg (by simp [hvalid])]

/-- With every key below the target the loop leaves the iterator invalid. -/
theorem advance_past (n : ℕ) (h : it.Over data key es) (ha : it.At es i)
    (hs : OrderedCursor.seek (ikeyCompare u) (keysOf es) t = none) (hn : i + (n + 1) = es.length) :
    ∃ it', Outcome.Settles (fun fuel => it.advance u t.val fuel) it' ∧ it'.Over data key es ∧
      it'.valid = false := by
  have hbelow := seek_eq_none hs
  induction n generalizing it i with
  | zero =>
      have hi := List.getElem?_eq_getElem (show i < (keysOf es).length by
        rw [length_keysOf]
        omega)
      have hlt : it.compareCurrentKey u t.val = .lt := by
        rw [compareCurrentKey_at h ha hi]
        exact hbelow _ (List.getElem_mem _)
      exact advance_past_last (it.restarts + 1) h (by rw [ha.index_eq]; omega) hlt (by omega)
  | succ n ih =>
      obtain ⟨it₁, ho, ha₁, hturn⟩ := advance_turn (u := u) (t := t) h ha (by omega)
        fun k hk => hbelow k (List.mem_of_getElem? hk)
      obtain ⟨it', hsettles, hit'⟩ := ih ho ha₁ (by omega)
      exact ⟨it', Outcome.settles_succ rfl hturn hsettles, hit'⟩

/-- `SeekImpl` finds the first entry that is not below the target, or ends invalid. -/
theorem seekImpl_settles (h : it.Over data key es) (hpos : 0 < es.length) (t : InternalKey) :
    ∃ it', Outcome.Settles (fun fuel => it.seekImpl u fuel t.val) it' ∧ it'.Over data key es ∧
      match OrderedCursor.seek (ikeyCompare u) (keysOf es) t with
      | some j => it'.At es j ∧ j < es.length
      | none => it'.valid = false := by
  obtain ⟨it₁, hnarrow, ho₁, hindex⟩ := narrow_settles (u := u) h (le_refl es.length) hpos
  rw [← h.length_table] at hnarrow
  obtain ⟨it₂, hnext, ho₂, ha₂⟩ := nextImpl_at ho₁ hpos (by rw [hindex]; rfl)
  have hloop : ∀ it', Outcome.Settles (fun fuel => it₂.advance u t.val fuel) it' →
      Outcome.Settles (fun fuel => it.seekImpl u fuel t.val) it' := by
    intro it' hadvance
    exact Outcome.settles_bind hnarrow
      (Outcome.settles_bind (Outcome.settles_const hnext) hadvance)
  cases hs : OrderedCursor.seek (ikeyCompare u) (keysOf es) t with
  | some j =>
      obtain ⟨it', hadvance, ho, ha⟩ := advance_to j ho₂ ha₂ hs (Nat.zero_add j)
      obtain ⟨⟨k, hk, -⟩, -⟩ := seek_eq_some hs
      refine ⟨it', hloop it' hadvance, ho, ha, ?_⟩
      rw [← length_keysOf]
      exact (List.getElem?_eq_some_iff.mp hk).1
  | none =>
      obtain ⟨it', hadvance, ho, hv⟩ := advance_past (es.length - 1) ho₂ ha₂ hs (by omega)
      exact ⟨it', hloop it' hadvance, ho, hv⟩

theorem prevImpl_at (h : it.Over data key es) (hi : i < es.length) (hindex : it.currentIndex = i) :
    ∃ it', it.prevImpl = .ok it' ∧ it'.Over data key es ∧ it'.At es (i - 1) := by
  obtain ⟨it', hm, ho, ha⟩ := moveTo_at h (show i - 1 < es.length by omega)
  refine ⟨it', ?_, ho, ha⟩
  by_cases hzero : i = 0
  · rw [prevImpl, hindex, if_neg (by omega), hzero]
    rw [hzero] at hm
    exact hm
  · rw [prevImpl, hindex, if_pos (by omega), ← hm, Nat.cast_sub (by omega), Nat.cast_one]

theorem seekToLastImpl_stops (h : it.Over data key es) :
    it.seekToLastImpl = .error .outOfBuffer := by
  have hentry : ∀ i : ℤ, (es.length : ℤ) ≤ i → ({ it with
      currentIndex := it.keyOffsetMap.length + 1 } : EncryptedDataBlockIter).entryAt i =
        .error .outOfBuffer := by
    intro i hi
    have hnone : it.keyOffsetMap[i.toNat]? = none := by
      rw [List.getElem?_eq_none_iff, h.length_table]
      omega
    rw [entryAt, if_pos (by omega), hnone]
  unfold seekToLastImpl
  split
  · next hnone => exact absurd (hnone.symm.trans h.data_eq) (by simp)
  · rw [prevImpl, if_pos (by dsimp only; omega), moveTo, hentry _ (by
      dsimp only
      rw [h.length_table]
      omega), Outcome.error_bind]

/-- An entry that is not above the target ends the loop of `SeekForPrevImpl`. -/
theorem retreat_stop (h : it.Over data key es) (ha : it.At es i)
    (hle : ∀ k ∈ (keysOf es)[i]?, ikeyCompare u k t ≠ .gt) (hi : i < es.length) :
    Outcome.Settles (fun fuel => it.retreat u t.val fuel) it := by
  have hk := List.getElem?_eq_getElem (show i < (keysOf es).length by rwa [length_keysOf])
  refine Outcome.settles_stop rfl ?_
  intro fuel
  rw [retreat, if_neg]
  rintro ⟨-, hgt⟩
  rw [compareCurrentKey_at h ha hk] at hgt
  exact hle _ hk hgt

/-- Above the target the loop of `SeekForPrevImpl` steps back, and at the first entry it
stays where it is. -/
theorem retreat_turn (h : it.Over data key es) (ha : it.At es i) (hi : i < es.length)
    (hs : Shown es i) (hgt : ∀ k ∈ (keysOf es)[i]?, ikeyCompare u k t = .gt) :
    ∃ it₁ : EncryptedDataBlockIter, it₁.Over data key es ∧ it₁.At es (i - 1) ∧
      ∀ fuel, it.retreat u t.val (fuel + 1) = it₁.retreat u t.val fuel := by
  obtain ⟨it₁, hprev, ho, ha₁⟩ := prevImpl_at h hi ha.index_eq
  have hk := List.getElem?_eq_getElem (show i < (keysOf es).length by rwa [length_keysOf])
  refine ⟨it₁, ho, ha₁, ?_⟩
  intro fuel
  rw [retreat, if_pos ⟨(valid_iff h ha hi).mpr hs, by
    rw [compareCurrentKey_at h ha hk]
    exact hgt _ hk⟩, hprev, Outcome.ok_bind]

theorem retreat_diverges (fuel : ℕ) (h : it.Over data key es) (ha : it.At es 0)
    (hpos : 0 < es.length) (hs : Shown es 0)
    (hgt : ∀ k ∈ (keysOf es)[0]?, ikeyCompare u k t = .gt) :
    it.retreat u t.val fuel = .error .diverged := by
  induction fuel generalizing it with
  | zero => rfl
  | succ fuel ih =>
      obtain ⟨it₁, ho, ha₁, hturn⟩ := retreat_turn h ha hpos hs hgt
      rw [hturn]
      exact ih ho ha₁

/-- The iterator reads the block, and stands where the reference cursor does. -/
structure Tracks (it : EncryptedDataBlockIter) (data : Bytes) (key : Key)
    (es : List (InternalKey × Bytes)) (pos : Option ℕ) : Prop where
  isOver : it.Over data key es
  on : ∀ i ∈ pos, it.On data key es i ∧ Shown es i

theorem agrees_some (h : it.On data key es j) :
    it.Agrees (keysOf es) (some j) ↔ Shown es j := by
  rw [Agrees, Option.isSome_some, h.valid_iff]
  constructor
  · rintro ⟨hs, -⟩
    exact hs
  · intro hs
    refine ⟨hs, ?_⟩
    intro i hi k hk
    obtain rfl := Option.some.inj hi
    obtain ⟨v, he⟩ := getElem?_keysOf.mp hk
    exact h.key_eq hs he

theorem agrees_none {keys : List InternalKey} : it.Agrees keys none ↔ it.valid = false := by
  rw [Agrees]
  constructor
  · rintro ⟨hv, -⟩
    exact hv
  · intro hv
    exact ⟨hv, fun i hi => nomatch hi⟩

variable {pos pos' : Option ℕ} {op : Op InternalKey} {it₁ : EncryptedDataBlockIter}

/-- The call ends, and the iterator it leaves is where the reference cursor is. -/
def CallSound (u : Comparator) (it : EncryptedDataBlockIter) (data : Bytes) (key : Key)
    (es : List (InternalKey × Bytes)) (pos' : Option ℕ) (op : Op InternalKey) : Prop :=
  ∃ it₁, Outcome.Settles (fun fuel => it.call u fuel op) it₁ ∧ it₁.Tracks data key es pos' ∧
    it₁.Agrees (keysOf es) pos'

/-- The call does not end, leaves the table, or disagrees with the reference cursor. -/
def CallUnsound (u : Comparator) (it : EncryptedDataBlockIter)
    (es : List (InternalKey × Bytes)) (pos' : Option ℕ) (op : Op InternalKey) : Prop :=
  ∀ fuel it', it.call u fuel op = .ok it' → ¬ it'.Agrees (keysOf es) pos'

theorem callSound_some (hsettles : Outcome.Settles (fun fuel => it.call u fuel op) it₁)
    (h : it₁.On data key es j) (hs : Shown es j) : it.CallSound u data key es (some j) op := by
  refine ⟨it₁, hsettles, ⟨h.isOver, ?_⟩, (agrees_some h).mpr hs⟩
  intro i hi
  obtain rfl := Option.some.inj hi
  exact ⟨h, hs⟩

theorem callSound_none (hsettles : Outcome.Settles (fun fuel => it.call u fuel op) it₁)
    (h : it₁.Over data key es) (hv : it₁.valid = false) : it.CallSound u data key es none op :=
  ⟨it₁, hsettles, ⟨h, fun _ hi => nomatch hi⟩, agrees_none.mpr hv⟩

theorem callUnsound_of_settles (hsettles : Outcome.Settles (fun fuel => it.call u fuel op) it₁)
    (h : ¬ it₁.Agrees (keysOf es) pos') : it.CallUnsound u es pos' op := by
  intro fuel it' hcall
  rw [hsettles.stable fuel it' hcall]
  exact h

theorem callUnsound_of_stops (h : ∀ fuel it', it.call u fuel op ≠ .ok it') :
    it.CallUnsound u es pos' op := fun fuel it' hcall => absurd hcall (h fuel it')

theorem seekToFirst_call (h : it.Over data key es) (hne : es ≠ []) :
    (Shown es 0 → it.CallSound u data key es (some 0) .seekToFirst) ∧
      (¬ Shown es 0 → it.CallUnsound u es (some 0) .seekToFirst) := by
  obtain ⟨it₁, hfirst, hon⟩ := seekToFirst_on h hne
  have hsettles : Outcome.Settles (fun fuel => it.call u fuel .seekToFirst) it₁ :=
    Outcome.settles_const hfirst
  exact ⟨callSound_some hsettles hon,
    fun hs => callUnsound_of_settles hsettles fun ha => hs ((agrees_some hon).mp ha)⟩

theorem seekToLast_call (h : it.Over data key es) : it.CallUnsound u es pos' .seekToLast := by
  apply callUnsound_of_stops
  intro fuel it' hcall
  rw [call, seekToLast, seekToLastImpl_stops h, Outcome.error_bind] at hcall
  cases hcall

theorem seek_call (h : it.Over data key es) (hpos : 0 < es.length) (t : InternalKey) :
    (CallFollows u es pos (.seek t) → it.CallSound u data key es
        (OrderedCursor.seek (ikeyCompare u) (keysOf es) t) (.seek t)) ∧
      (¬ CallFollows u es pos (.seek t) → it.CallUnsound u es
        (OrderedCursor.seek (ikeyCompare u) (keysOf es) t) (.seek t)) := by
  obtain ⟨it₁, hseek, ho, hland⟩ := seekImpl_settles (u := u) h hpos t
  have hsettles : Outcome.Settles (fun fuel => it.call u fuel (.seek t)) it₁.updateKey :=
    Outcome.settles_bind hseek (Outcome.settles_const rfl)
  rw [CallFollows]
  cases hs : OrderedCursor.seek (ikeyCompare u) (keysOf es) t with
  | some j =>
      rw [hs] at hland
      have hon := updateKey_on ho hland.1 hland.2
      constructor
      · intro hshown
        exact callSound_some hsettles hon (hshown j rfl)
      · intro hshown
        refine callUnsound_of_settles hsettles fun ha => hshown ?_
        intro i hi
        obtain rfl := Option.some.inj hi
        exact (agrees_some hon).mp ha
  | none =>
      rw [hs] at hland
      constructor
      · intro _
        exact callSound_none hsettles (updateKey_over ho) (by rw [updateKey_valid, hland])
      · intro hshown
        exact absurd (fun i hi => nomatch hi) hshown

/-- Where `SeekImpl` ends invalid, `SeekForPrevImpl` goes on to `SeekToLastImpl`. -/
theorem seekForPrev_of_invalid
    (hseek : Outcome.Settles (fun fuel => it.seekImpl u fuel t.val) it₁)
    (h : it₁.Over data key es) (hv : it₁.valid = false) (fuel : ℕ)
    (it' : EncryptedDataBlockIter) : it.call u fuel (.seekForPrev t) ≠ .ok it' := by
  intro hcall
  rw [call, seekForPrev, seekForPrevImpl] at hcall
  obtain ⟨it₂, hcall, -⟩ := Outcome.bind_eq_ok.mp hcall
  obtain ⟨it₃, hit₃, hcall⟩ := Outcome.bind_eq_ok.mp hcall
  obtain rfl := hseek.stable fuel it₃ hit₃
  rw [if_neg (by simp [hv]), seekToLastImpl_stops h] at hcall
  cases hcall

theorem seekForPrev_settles (hseek : Outcome.Settles (fun fuel => it.seekImpl u fuel t.val) it₁)
    (hv : it₁.valid = true) (hloop : Outcome.Settles (fun fuel => it₁.retreat u t.val fuel) it') :
    Outcome.Settles (fun fuel => it.call u fuel (.seekForPrev t)) it'.updateKey := by
  refine Outcome.settles_bind (Outcome.settles_bind hseek ?_) (Outcome.settles_const rfl)
  simp only [if_pos hv]
  exact hloop

/-- `SeekForPrev` is sound under its condition, and does not return otherwise. -/
theorem seekForPrev_call (pos : Option ℕ) (h : it.Over data key es) (hpos : 0 < es.length)
    (hsorted : (keysOf es).Pairwise (fun a b => ikeyCompare u a b = .lt)) (t : InternalKey) :
    (CallFollows u es pos (.seekForPrev t) → it.CallSound u data key es
        (OrderedCursor.seekForPrev (ikeyCompare u) (keysOf es) t) (.seekForPrev t)) ∧
      (¬ CallFollows u es pos (.seekForPrev t) →
        ∀ fuel it', it.call u fuel (.seekForPrev t) ≠ .ok it') := by
  obtain ⟨it₁, hseek, ho, hland⟩ := seekImpl_settles (u := u) h hpos t
  rw [CallFollows]
  cases hs : OrderedCursor.seek (ikeyCompare u) (keysOf es) t with
  | none =>
      rw [hs] at hland
      constructor
      · rintro ⟨j, hj, -⟩
        cases hj
      · intro _
        exact seekForPrev_of_invalid hseek ho hland
  | some j =>
      rw [hs] at hland
      obtain ⟨ha, hj⟩ := hland
      obtain ⟨⟨k, hk, hkt⟩, hbefore⟩ := seek_eq_some hs
      by_cases hshown : Shown es j
      · have hvalid : it₁.valid = true := (valid_iff ho ha hj).mpr hshown
        by_cases hgt : ikeyCompare u k t = .gt
        · have hgt' : ∀ k' ∈ (keysOf es)[j]?, ikeyCompare u k' t = .gt := by
            intro k' hk'
            rw [hk] at hk'
            rwa [← Option.some.inj hk']
          cases j with
          | zero =>
              constructor
              · rintro ⟨j, hjz, -, hfirst⟩
                exact absurd hgt (hfirst (Option.some.inj hjz).symm k hk)
              · intro _ fuel it' hcall
                rw [call, seekForPrev, seekForPrevImpl] at hcall
                obtain ⟨it₂, hcall, -⟩ := Outcome.bind_eq_ok.mp hcall
                obtain ⟨it₃, hit₃, hcall⟩ := Outcome.bind_eq_ok.mp hcall
                obtain rfl := hseek.stable fuel it₃ hit₃
                rw [if_pos hvalid, retreat_diverges fuel ho ha hpos hshown hgt'] at hcall
                cases hcall
          | succ j =>
              obtain ⟨it₂, ho₂, ha₂, hturn⟩ := retreat_turn (u := u) (t := t) ho ha hj hshown hgt'
              rw [Nat.add_sub_cancel] at ha₂
              have hloop : Outcome.Settles (fun fuel => it₁.retreat u t.val fuel) it₂ := by
                refine Outcome.settles_succ rfl hturn (retreat_stop ho₂ ha₂ ?_ (by omega))
                intro k' hk'
                rw [hbefore j k' (Nat.lt_succ_self j) hk']
                decide
              have hsettles := seekForPrev_settles hseek hvalid hloop
              have hon := updateKey_on ho₂ ha₂ (by omega)
              rw [seekForPrev_of_gt hsorted hs hk hgt]
              constructor
              · intro _
                exact callSound_some hsettles hon (Or.inl hj)
              · intro hnot
                exact absurd ⟨j + 1, rfl, hshown, fun hz => nomatch hz⟩ hnot
        · have hle : ∀ k' ∈ (keysOf es)[j]?, ikeyCompare u k' t ≠ .gt := by
            intro k' hk'
            rw [hk] at hk'
            rwa [← Option.some.inj hk']
          have heq : ikeyCompare u k t = .eq := by
            cases hcmp : ikeyCompare u k t with
            | lt => exact absurd hcmp hkt
            | eq => rfl
            | gt => exact absurd hcmp hgt
          have hsettles := seekForPrev_settles hseek hvalid (retreat_stop ho ha hle hj)
          rw [seekForPrev_of_eq hsorted hk heq]
          constructor
          · intro _
            exact callSound_some hsettles (updateKey_on ho ha hj) hshown
          · intro hnot
            refine absurd ⟨j, rfl, hshown, ?_⟩ hnot
            intro hz k' hk'
            exact hle k' (by rwa [hz])
      · constructor
        · rintro ⟨j', hj', hs', -⟩
          obtain rfl := Option.some.inj hj'
          exact absurd hs' hshown
        · intro _
          refine seekForPrev_of_invalid hseek ho ?_
          rw [← Bool.not_eq_true, valid_iff ho ha hj]
          exact hshown

theorem next_call (h : it.On data key es i) :
    (CallFollows u es (some i) .next → it.CallSound u data key es
        (if i + 1 < es.length then some (i + 1) else none) .next) ∧
      (¬ CallFollows u es (some i) .next → it.CallUnsound u es
        (if i + 1 < es.length then some (i + 1) else none) .next) := by
  have hfollows : CallFollows u es (some i) .next ↔
      if i + 1 < es.length then Shown es (i + 1) else lastSize es ≤ 20000 := by
    simp [CallFollows]
  rw [hfollows]
  by_cases hi : i + 1 < es.length
  · obtain ⟨it₁, hnext, hon⟩ := next_on h.isOver h.here.index_eq hi
    have hsettles : Outcome.Settles (fun fuel => it.call u fuel .next) it₁ :=
      Outcome.settles_const hnext
    rw [if_pos hi, if_pos hi]
    exact ⟨callSound_some hsettles hon,
      fun hs => callUnsound_of_settles hsettles fun ha => hs ((agrees_some hon).mp ha)⟩
  · have hlt := h.lt
    obtain ⟨it₁, hnext, ho, hvalid⟩ :=
      next_last h.isOver h.here.index_eq h.here.current_eq (by omega)
    have hsettles : Outcome.Settles (fun fuel => it.call u fuel .next) it₁ :=
      Outcome.settles_const hnext
    rw [if_neg hi, if_neg hi]
    constructor
    · intro hle
      refine callSound_none hsettles ho ?_
      rw [← Bool.not_eq_true, hvalid]
      omega
    · intro hlong
      refine callUnsound_of_settles hsettles fun ha => ?_
      rw [agrees_none, hvalid.mpr (by omega)] at ha
      cases ha

theorem prev_call (h : it.On data key es i) (hs : Shown es i) :
    (CallFollows u es (some i) .prev → it.CallSound u data key es
        (if 0 < i then some (i - 1) else none) .prev) ∧
      (¬ CallFollows u es (some i) .prev → it.CallUnsound u es
        (if 0 < i then some (i - 1) else none) .prev) := by
  have hfollows : CallFollows u es (some i) .prev ↔ 0 < i := by simp [CallFollows]
  have hlt := h.lt
  obtain ⟨it₁, hprev, ho, ha⟩ := prevImpl_at h.isOver hlt h.here.index_eq
  have hon := updateKey_on ho ha (by omega)
  have hcall : it.prev = .ok it₁.updateKey := by rw [prev, hprev, Outcome.ok_bind]
  have hsettles : Outcome.Settles (fun fuel => it.call u fuel .prev) it₁.updateKey :=
    Outcome.settles_const hcall
  rw [hfollows]
  constructor
  · intro hi
    rw [if_pos hi]
    exact callSound_some hsettles hon (Or.inl (by omega))
  · intro hi
    rw [if_neg hi]
    refine callUnsound_of_settles hsettles fun hag => ?_
    obtain rfl : i = 0 := by omega
    rw [agrees_none, hon.valid_iff.mpr hs] at hag
    cases hag

/-- One call: it is sound under its condition, and not otherwise. -/
theorem step_call (hne : es ≠ [])
    (hsorted : (keysOf es).Pairwise (fun a b => ikeyCompare u a b = .lt))
    (h : it.Tracks data key es pos) (hallowed : op.Allowed pos) :
    (CallFollows u es pos op →
        it.CallSound u data key es (step (ikeyCompare u) (keysOf es) pos op) op) ∧
      (¬ CallFollows u es pos op →
        it.CallUnsound u es (step (ikeyCompare u) (keysOf es) pos op) op) := by
  have hpos := List.length_pos_of_ne_nil hne
  have hkeys : keysOf es ≠ [] := by
    rw [← List.length_pos_iff, length_keysOf]
    exact hpos
  cases op with
  | seekToFirst =>
      rw [step, if_neg hkeys]
      exact seekToFirst_call h.isOver hne
  | seekToLast => exact ⟨False.elim, fun _ => seekToLast_call h.isOver⟩
  | seek t => exact seek_call h.isOver hpos t
  | seekForPrev t =>
      obtain ⟨hsound, hstops⟩ := seekForPrev_call pos h.isOver hpos hsorted t
      exact ⟨hsound, fun hnot => callUnsound_of_stops (hstops hnot)⟩
  | next =>
      obtain ⟨i, rfl⟩ := Option.isSome_iff_exists.mp hallowed
      obtain ⟨hon, -⟩ := h.on i rfl
      rw [step, Option.bind_some, length_keysOf]
      exact next_call hon
  | prev =>
      obtain ⟨i, rfl⟩ := Option.isSome_iff_exists.mp hallowed
      obtain ⟨hon, hs⟩ := h.on i rfl
      rw [step, Option.bind_some]
      exact prev_call hon hs

/-- A sequence of calls, by induction on it. -/
theorem follows_iff (hne : es ≠ [])
    (hsorted : (keysOf es).Pairwise (fun a b => ikeyCompare u a b = .lt))
    (h : it.Tracks data key es pos) (ops : List (Op InternalKey))
    (hallowed : CallsAllowed u (keysOf es) pos ops) :
    it.Follows u (keysOf es) pos ops ↔ CallsFollow u es pos ops := by
  induction ops generalizing it pos with
  | nil => exact Iff.rfl
  | cons op ops ih =>
      obtain ⟨hop, hops⟩ := hallowed
      obtain ⟨hsound, hunsound⟩ := step_call hne hsorted h hop
      rw [Follows, CallsFollow]
      by_cases hcall : CallFollows u es pos op
      · obtain ⟨it₁, hsettles, htracks, hagrees⟩ := hsound hcall
        have hrest := ih htracks hops
        constructor
        · rintro ⟨fuel, it', hit', -, hfollows⟩
          obtain rfl := hsettles.stable fuel it' hit'
          exact ⟨hcall, hrest.mp hfollows⟩
        · rintro ⟨-, hfollow⟩
          obtain ⟨n, hn⟩ := hsettles.enough
          exact ⟨n, it₁, hn n (le_refl n), hagrees, hrest.mpr hfollow⟩
      · constructor
        · rintro ⟨fuel, it', hit', hagrees, -⟩
          exact absurd hagrees (hunsound hcall fuel it' hit')
        · rintro ⟨hfollow, -⟩
          exact absurd hfollow hcall

end EncryptedDataBlockIter

/-- The calls on an iterator that was just opened over the block with these entries give
what the reference cursor over their keys gives. -/
def BlockRefinesCursor (C : Gcm) (digest : Digest) (delta : Bool) (key : Key) (u : Comparator)
    (es : BlockEntries u) (ops : List (Op InternalKey)) : Prop :=
  ∃ it, (EncryptedBlock.mk (dataBlock C digest delta key es.entries) key).newDataIterator C u
      kDisableGlobalSequenceNumber = .ok it ∧ it.Follows u (keysOf es.entries) none ops

theorem blockRefinesCursor_of_opened (C : Gcm) (digest : Digest) (delta : Bool) (key : Key)
    (u : Comparator) (es : BlockEntries u) (ops : List (Op InternalKey)) (hne : es.entries ≠ [])
    (hsize : (dataBlock C digest delta key es.entries).length ≤ 2 ^ 31) :
    ∃ it : EncryptedDataBlockIter,
      it.Tracks (dataBlock C digest delta key es.entries) key es.entries none ∧
      (BlockRefinesCursor C digest delta key u es ops ↔
        it.Follows u (keysOf es.entries) none ops) := by
  have hlen := length_dataBlock C digest key delta es.entries
  refine ⟨openedIter key (dataBlock C digest delta key es.entries) kDisableGlobalSequenceNumber
    es.entries, ⟨openedIter_over (by omega), fun _ hi => nomatch hi⟩, ?_⟩
  rw [BlockRefinesCursor, newDataIterator_dataBlock C digest key u delta _ es hne hsize]
  constructor
  · rintro ⟨it, hit, h⟩
    rwa [Except.ok.inj hit]
  · intro h
    exact ⟨_, rfl, h⟩

/-- The iterator over a block within the supported size goes along with the reference
cursor exactly if each call does. -/
theorem blockRefinesCursor_iff (C : Gcm) (digest : Digest) (delta : Bool) (key : Key)
    (u : Comparator) (es : BlockEntries u) (ops : List (Op InternalKey)) (hne : es.entries ≠ [])
    (hsize : (dataBlock C digest delta key es.entries).length ≤ 2 ^ 31)
    (hallowed : CallsAllowed u (keysOf es.entries) none ops) :
    BlockRefinesCursor C digest delta key u es ops ↔ CallsFollow u es.entries none ops := by
  obtain ⟨it, htracks, hiff⟩ := blockRefinesCursor_of_opened C digest delta key u es ops hne hsize
  rw [hiff]
  exact EncryptedDataBlockIter.follows_iff hne es.sorted_keysOf htracks ops hallowed

theorem blockRefinesCursor_iff_deletedThenPut :
    BlockRefinesCursor sampleGcm sampleDigest true sampleKey bytewiseComparator deletedThenPut
      [.seekToFirst, .next, .prev, .seekForPrev ⟨[98, 1, 1, 0, 0, 0, 0, 0, 0], by decide⟩, .next] :=
  (blockRefinesCursor_iff sampleGcm sampleDigest true sampleKey bytewiseComparator deletedThenPut
    _ (by decide) (by rw [length_dataBlock]; decide) (by decide)).mpr (by decide)

/-- `SeekToLast` reads behind the table. -/
theorem deletedThenPut_not_refinesCursor :
    ¬ BlockRefinesCursor sampleGcm sampleDigest true sampleKey bytewiseComparator deletedThenPut
      [.seekToLast] := by
  obtain ⟨it, htracks, hiff⟩ := blockRefinesCursor_of_opened sampleGcm sampleDigest true sampleKey
    bytewiseComparator deletedThenPut [.seekToLast] (by decide) (by rw [length_dataBlock]; decide)
  rw [hiff]
  rintro ⟨fuel, it', hcall, hagrees, -⟩
  exact EncryptedDataBlockIter.seekToLast_call htracks.isOver fuel it' hcall hagrees

end Tweezer
