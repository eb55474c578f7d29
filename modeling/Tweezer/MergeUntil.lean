import Tweezer.MemTableCorrect
import Tweezer.MergeHelper

/-!
# Merging preserves what is read

Reading a key over what `MergeUntil` leaves of its versions, with any newer operands over them
and any older value under them, gives what reading it over the versions themselves gives.
-/

namespace Tweezer

/-! ### Operators that merge one operand after the other -/

namespace AssociativeMergeOperator

variable (op : AssociativeMergeOperator)

/-- The default `PartialMergeMulti`, with `Merge` for `PartialMerge`. -/
def partialMergeMulti (key : Bytes) : List Bytes → Option Bytes
  | [] => none
  | operand :: operands => operands.foldlM (fun left right => op.merge key (some left) right) operand

def toMergeOperator (allowSingleOperand : Bool) : MergeOperator where
  fullMergeV2 key base operands := (op.fullMergeV2 key base operands).join
  partialMergeMulti := op.partialMergeMulti
  allowSingleOperand := allowSingleOperand

theorem fullMergeV2_append (key : Bytes) (base : Option Bytes) (ops ops' : List Bytes) :
    op.fullMergeV2 key base (ops ++ ops') =
      (op.fullMergeV2 key base ops).bind fun v => op.fullMergeV2 key v ops' := by
  induction ops generalizing base with
  | nil => rfl
  | cons o ops ih =>
      rw [List.cons_append, fullMergeV2, fullMergeV2]
      cases op.merge key base o with
      | none => rfl
      | some v => exact ih (some v)

/-- Operands over a base leave a value. -/
theorem isSome_of_fullMergeV2 {key : Bytes} {base : Option Bytes} {ops : List Bytes}
    (hne : ops ≠ [] ∨ base ≠ none) {v : Option Bytes} (h : op.fullMergeV2 key base ops = some v) :
    ∃ b, v = some b := by
  induction ops generalizing base with
  | nil =>
      rw [fullMergeV2, Option.some.injEq] at h
      subst h
      exact Option.ne_none_iff_exists'.mp (hne.resolve_left fun h => h rfl)
  | cons o ops ih =>
      rw [fullMergeV2] at h
      cases hmerge : op.merge key base o with
      | none =>
          rw [hmerge] at h
          cases h
      | some b =>
          rw [hmerge] at h
          exact ih (Or.inr (Option.some_ne_none b)) h

/-- Where the user's `Merge` is associative, the default partial merge agrees with the full one. -/
theorem associative (allowSingleOperand : Bool)
    (hassoc : ∀ key base left right, (op.merge key base left).bind (fun v =>
      op.merge key (some v) right) = (op.merge key (some left) right).bind (op.merge key base)) :
    (op.toMergeOperator allowSingleOperand).Associative := by
  constructor
  · intro key base ops ops' hops _
    change (op.fullMergeV2 key base (ops ++ ops')).join =
      (op.fullMergeV2 key base ops).join.bind fun v => (op.fullMergeV2 key (some v) ops').join
    rw [fullMergeV2_append]
    cases h : op.fullMergeV2 key base ops with
    | none => rfl
    | some v =>
        obtain ⟨b, rfl⟩ := op.isSome_of_fullMergeV2 (Or.inl hops) h
        rfl
  · intro key ops p hpartial hne base
    change (op.fullMergeV2 key base [p]).join = (op.fullMergeV2 key base ops).join
    cases ops with
    | nil => exact absurd rfl hne
    | cons o ops =>
        -- by induction on the operands behind the first, which is merged with each of them
        have hpartial' : ops.foldlM (fun left right => op.merge key (some left) right) o = some p :=
          hpartial
        clear hpartial
        induction ops generalizing o with
        | nil =>
            rw [List.foldlM_nil] at hpartial'
            cases hpartial'
            rfl
        | cons o' ops ih =>
            rw [List.foldlM_cons] at hpartial'
            cases hmerge : op.merge key (some o) o' with
            | none =>
                rw [hmerge] at hpartial'
                cases hpartial'
            | some l =>
                rw [hmerge] at hpartial'
                rw [ih l (List.cons_ne_nil _ _) hpartial']
                have hstep := hassoc key base o o'
                rw [hmerge, Option.bind_some] at hstep
                rw [fullMergeV2, ← hstep, fullMergeV2]
                cases op.merge key base o with
                | none => rfl
                | some v => rfl

end AssociativeMergeOperator

/-! ### Reading -/

inductive ReadResult where
  | notFound
  | found (value : Bytes)
  | corruption
  deriving DecidableEq, Repr

namespace MergeOperator

variable (op : MergeOperator) (u : Comparator) (key : Bytes) (older : Option Bytes)

/-- The operands, oldest first, over a value or over nothing. -/
def readOver (base : Option Bytes) (operands : List Bytes) : ReadResult :=
  if operands = [] then
    match base with
    | none => .notFound
    | some v => .found v
  else
    match op.fullMergeV2 key base operands with
    | none => .corruption
    | some v => .found v

/-- Reading `key` over entries, newest first, with the operands that were found so far, and
with `older` in the levels below. -/
def read : List Bytes → List InternalEntry → ReadResult
  | operands, [] => op.readOver key older operands
  | _, .corrupted :: _ => .corruption
  | operands, .version userKey v :: rest =>
      if u.compare userKey key ≠ .eq then op.readOver key older operands
      else
        match v.type with
        | .merge => read (v.value :: operands) rest
        | .value => op.readOver key (some v.value) operands
        | _ => op.readOver key none operands

end MergeOperator

/-- What is left to be read. -/
def MergeOutcome.entries (o : MergeOutcome) : List InternalEntry :=
  o.output.map fun e =>
    if h : e.1.type ∈ pointTypes then .version e.1.userKey ⟨e.1.sequence, e.1.type, e.2, h⟩
    else .corrupted

/-! ### What the loop comes to -/

/-- The versions of a key as entries of the input. -/
def versionsOf (key : Bytes) (vs : List KeyVersion) : List InternalEntry :=
  vs.map (InternalEntry.version key)

/-- The deque of keys and the operands are those of the merges `ms`, newest first. -/
structure MergesHeld (key : Bytes) (ms : List KeyVersion) (keys : List ParsedInternalKey)
    (ctx : MergeContext) : Prop where
  keys : keys = (ms.map fun v => ⟨key, v.sequence, v.type⟩).reverse
  operands : ctx.operands = (ms.map KeyVersion.value).reverse

/-- A version that the snapshot at `stopBefore` cannot see. -/
def Above (stopBefore : ℕ) (v : KeyVersion) : Prop := stopBefore = 0 ∨ stopBefore < v.sequence

/-- How the loop can end, with `ms` the merges it has gone through and `left` the versions of
the key that are left. -/
inductive MergeLoopEnd.Reached (H : MergeHelper) (key : Bytes) (stopBefore : ℕ)
    (rest : List InternalEntry) (ms left : List KeyVersion) : MergeLoopEnd → Prop
  | stopped (hit : Bool) (keys : List ParsedInternalKey) (ctx : MergeContext)
      (held : MergesHeld key ms keys ctx)
      (whole : hit = true ∨ versionsOf key left ++ rest = [] →
        left = [] ∧ rest.head? ≠ some .corrupted) :
      Reached H key stopBefore rest ms left
        (.break hit ⟨.ok, keys, ctx, versionsOf key left ++ rest⟩)
  | base (v : KeyVersion) (older : List KeyVersion) (keys : List ParsedInternalKey)
      (ctx : MergeContext) (held : MergesHeld key ms keys ctx) (eq : left = v :: older)
      (type_ne : v.type ≠ .merge) (above : Above stopBefore v) :
      Reached H key stopBefore rest ms left
        (.return (H.mergeBase key v keys ctx (.version key v) (versionsOf key older ++ rest)))
  | unreadable (keys : List ParsedInternalKey) (ctx : MergeContext)
      (held : MergesHeld key ms keys ctx) (eq : left = []) :
      Reached H key stopBefore rest ms left (.return ⟨.corruption, keys, ctx, rest⟩)

theorem MergesHeld.push {key : Bytes} {ms : List KeyVersion} {keys : List ParsedInternalKey}
    {ctx : MergeContext} (h : MergesHeld key ms keys ctx) (v : KeyVersion) :
    MergesHeld key (ms ++ [v]) (⟨key, v.sequence, v.type⟩ :: keys) (ctx.pushOperand v.value) := by
  constructor
  · simp [h.keys]
  · simp [h.operands]

namespace MergeHelper

variable (H : MergeHelper) (key : Bytes) (stopBefore : ℕ)

theorem compare_self : H.userComparator.compare key key = .eq := by
  have := H.userComparator.transCmp
  exact Std.ReflCmp.compare_self

/-- A merge that the loop has to process is pushed. -/
theorem mergeLoop_merge {firstKey : Bool} {keys : List ParsedInternalKey} {ctx : MergeContext}
    {v : KeyVersion} {iter : List InternalEntry} (hmerge : v.type = .merge)
    (habove : firstKey = true ∨ Above stopBefore v) :
    H.mergeLoop key stopBefore firstKey keys ctx (.version key v :: iter) =
      H.mergeLoop key stopBefore false (⟨key, v.sequence, v.type⟩ :: keys)
        (ctx.pushOperand v.value) iter := by
  have hsame : ¬(firstKey = false ∧ H.userComparator.compare key key ≠ .eq) :=
    fun h => h.2 (H.compare_self key)
  have hstop : ¬(firstKey = false ∧ 0 < stopBefore ∧ v.sequence ≤ stopBefore) := by
    intro h
    cases habove with
    | inl hfirst => exact Bool.noConfusion (hfirst.symm.trans h.1)
    | inr habove =>
        unfold Above at habove
        omega
  rw [mergeLoop, if_neg hsame, if_neg hstop, if_neg (not_not_intro hmerge)]

/-- The loop, behind the first key. -/
theorem mergeLoop_reached {rest : List InternalEntry}
    (hrest : ∀ k v, rest.head? = some (.version k v) → H.userComparator.compare k key ≠ .eq)
    (vs ms : List KeyVersion) (keys : List ParsedInternalKey) (ctx : MergeContext)
    (hheld : MergesHeld key ms keys ctx) :
    ∃ more left, vs = more ++ left ∧ (∀ v ∈ more, v.type = .merge ∧ Above stopBefore v) ∧
      MergeLoopEnd.Reached H key stopBefore rest (ms ++ more) left
        (H.mergeLoop key stopBefore false keys ctx (versionsOf key vs ++ rest)) := by
  induction vs generalizing ms keys ctx with
  | nil =>
      have hheld' : MergesHeld key (ms ++ []) keys ctx := by
        rw [List.append_nil]
        exact hheld
      have hnone : ∀ v ∈ ([] : List KeyVersion), v.type = .merge ∧ Above stopBefore v := by
        intro v hv
        cases hv
      refine ⟨[], [], rfl, hnone, ?_⟩
      cases rest with
      | nil =>
          exact MergeLoopEnd.Reached.stopped false keys ctx hheld' fun _ => ⟨rfl, nofun⟩
      | cons e rest =>
          cases e with
          | corrupted =>
              by_cases hassert : H.assertValidInternalKey
              · have hloop : H.mergeLoop key stopBefore false keys ctx (.corrupted :: rest) =
                    .return ⟨.corruption, keys, ctx, .corrupted :: rest⟩ := by
                  rw [mergeLoop, if_pos hassert]
                rw [versionsOf, List.map_nil, List.nil_append, hloop]
                exact MergeLoopEnd.Reached.unreadable keys ctx hheld' rfl
              · have hloop : H.mergeLoop key stopBefore false keys ctx (.corrupted :: rest) =
                    .break false ⟨.ok, keys, ctx, .corrupted :: rest⟩ := by
                  rw [mergeLoop, if_neg hassert]
                rw [versionsOf, List.map_nil, List.nil_append, hloop]
                apply MergeLoopEnd.Reached.stopped false keys ctx hheld'
                intro h
                cases h with
                | inl h => cases h
                | inr h => cases h
          | version k v =>
              have hother := hrest k v rfl
              have hloop : H.mergeLoop key stopBefore false keys ctx (.version k v :: rest) =
                  .break true ⟨.ok, keys, ctx, .version k v :: rest⟩ := by
                rw [mergeLoop, if_pos ⟨rfl, hother⟩]
              rw [versionsOf, List.map_nil, List.nil_append, hloop]
              exact MergeLoopEnd.Reached.stopped true keys ctx hheld' fun _ => ⟨rfl, nofun⟩
  | cons v vs ih =>
      by_cases habove : Above stopBefore v
      · by_cases hmerge : v.type = .merge
        · obtain ⟨more, left, hvs, hmore, hreached⟩ := ih (ms ++ [v]) _ _ (hheld.push v)
          refine ⟨v :: more, left, by rw [hvs, List.cons_append], ?_, ?_⟩
          · intro w hw
            cases List.mem_cons.mp hw with
            | inl h => exact h ▸ ⟨hmerge, habove⟩
            | inr h => exact hmore w h
          · rw [versionsOf, List.map_cons, List.cons_append,
              H.mergeLoop_merge key stopBefore hmerge (Or.inr habove)]
            rw [List.append_assoc, List.singleton_append] at hreached
            exact hreached
        · have hsame : ¬(false = false ∧ H.userComparator.compare key key ≠ .eq) :=
            fun h => h.2 (H.compare_self key)
          have hstop : ¬(false = false ∧ 0 < stopBefore ∧ v.sequence ≤ stopBefore) := by
            unfold Above at habove
            omega
          have hloop : H.mergeLoop key stopBefore false keys ctx
              (versionsOf key (v :: vs) ++ rest) = .return (H.mergeBase key v keys ctx
                (.version key v) (versionsOf key vs ++ rest)) := by
            rw [versionsOf, List.map_cons, List.cons_append, mergeLoop, if_neg hsame,
              if_neg hstop, if_pos hmerge]
            rfl
          rw [hloop]
          refine ⟨[], v :: vs, rfl, fun w hw => (List.not_mem_nil hw).elim, ?_⟩
          apply MergeLoopEnd.Reached.base v vs keys ctx _ rfl hmerge habove
          rw [List.append_nil]
          exact hheld
      · have hsame : ¬(false = false ∧ H.userComparator.compare key key ≠ .eq) :=
          fun h => h.2 (H.compare_self key)
        have hstop : false = false ∧ 0 < stopBefore ∧ v.sequence ≤ stopBefore := by
          unfold Above at habove
          exact ⟨rfl, by omega, by omega⟩
        have hloop : H.mergeLoop key stopBefore false keys ctx (versionsOf key (v :: vs) ++ rest) =
            .break false ⟨.ok, keys, ctx, versionsOf key (v :: vs) ++ rest⟩ := by
          rw [versionsOf, List.map_cons, List.cons_append, mergeLoop, if_neg hsame,
            if_pos hstop]
        rw [hloop]
        refine ⟨[], v :: vs, rfl, fun w hw => (List.not_mem_nil hw).elim, ?_⟩
        apply MergeLoopEnd.Reached.stopped false keys ctx
        · rw [List.append_nil]
          exact hheld
        · intro h
          cases h with
          | inl h => cases h
          | inr h => cases h

end MergeHelper

/-! ### What becomes of the versions -/

/-- What the version under some merges gives to merge over. -/
def baseValue (base : Option KeyVersion) : Option Bytes :=
  base.bind fun v => if v.type = .value then some v.value else none

/-- The operands of merges, oldest first. -/
def operandsOf (ms : List KeyVersion) : List Bytes := (ms.map KeyVersion.value).reverse

/-- What the output has for the merges `ms`, newest first and `first` the newest, and for the
version `base` under them if it was consumed: the merges themselves, or all operands in one,
over the base or over nothing, or without a base. -/
inductive MergeOutcome.Accounts (H : MergeHelper) (key : Bytes) (atBottom : Bool)
    (first : KeyVersion) (ms : List KeyVersion) (base : Option KeyVersion)
    (left : List KeyVersion) (rest : List InternalEntry) (o : MergeOutcome) : Prop
  | unchanged (output : o.output = ms.map fun v => (⟨key, v.sequence, v.type⟩, v.value))
      (failed : base ≠ none → o.status = .corruption ∧
        H.userMergeOperator.fullMergeV2 key (baseValue base) (operandsOf ms) = none)
  | full (r : Bytes) (output : o.output = [(⟨key, first.sequence, .value⟩, r)])
      (merged : H.userMergeOperator.fullMergeV2 key (baseValue base) (operandsOf ms) = some r)
      (beginning : base = none →
        atBottom = true ∧ left = [] ∧ rest.head? ≠ some .corrupted)
  | together (r : Bytes) (output : o.output = [(⟨key, first.sequence, .merge⟩, r)])
      (merged : H.userMergeOperator.partialMergeMulti key (operandsOf ms) = some r)
      (no_base : base = none)

/-- The versions from `first` on are the merges `ms` that were consumed, the version `base` under
them if it was, and those left. No version behind the first that a snapshot at `stopBefore` sees
was consumed. -/
structure ConsumedVersions (stopBefore : ℕ) (first : KeyVersion) (tail ms : List KeyVersion)
    (base : Option KeyVersion) (left : List KeyVersion) : Prop where
  split : first :: tail = ms ++ base.toList ++ left
  newest : ms.head? = some first
  merges : ∀ v ∈ ms, v.type = .merge
  base_ne : ∀ v ∈ base, v.type ≠ .merge
  above : ∀ v ∈ (ms ++ base.toList).tail, Above stopBefore v

namespace MergesHeld

variable {key : Bytes} {ms : List KeyVersion} {keys : List ParsedInternalKey} {ctx : MergeContext}

theorem operands_eq (h : MergesHeld key ms keys ctx) : ctx.operands = operandsOf ms := h.operands

theorem getLast_keys (h : MergesHeld key ms keys ctx) {first : KeyVersion}
    (hfirst : ms.head? = some first) :
    keys.getLast? = some ⟨key, first.sequence, first.type⟩ := by
  rw [h.keys, List.getLast?_reverse, List.head?_map, hfirst]
  rfl

theorem output (h : MergesHeld key ms keys ctx) (status : MergeStatus)
    (iter : List InternalEntry) :
    (MergeOutcome.mk status keys ctx iter).output =
      ms.map fun v => (⟨key, v.sequence, v.type⟩, v.value) := by
  unfold MergeOutcome.output
  rw [h.keys, h.operands, List.reverse_reverse, List.reverse_reverse]
  exact List.zip_map'

end MergesHeld

theorem operandsOf_ne_nil {ms : List KeyVersion} {first : KeyVersion}
    (h : ms.head? = some first) : operandsOf ms ≠ [] := by
  cases ms with
  | nil => cases h
  | cons v ms =>
      intro hnil
      rw [operandsOf, List.reverse_eq_nil_iff, List.map_eq_nil_iff] at hnil
      cases hnil

/-- The one entry that takes the place of the operands. -/
theorem output_replaced (k : ParsedInternalKey) (r : Bytes) (ctx : MergeContext)
    (status : MergeStatus) (iter : List InternalEntry) :
    (MergeOutcome.mk status [k] (ctx.clear.pushOperand r) iter).output = [(k, r)] := by
  unfold MergeOutcome.output
  rw [MergeContext.operands_pushOperand, MergeContext.operands_clear]
  rfl

namespace MergeHelper

variable (H : MergeHelper) (key : Bytes) (atBottom : Bool)

/-- A version that is not a merge ends the merges in front of it. -/
theorem mergeBase_accounts {first v : KeyVersion} {ms older : List KeyVersion}
    {keys : List ParsedInternalKey} {ctx : MergeContext} {rest : List InternalEntry}
    (hheld : MergesHeld key ms keys ctx) (hfirst : ms.head? = some first) :
    (H.mergeBase key v keys ctx (.version key v) (versionsOf key older ++ rest)).iter =
        versionsOf key older ++ rest ∧
      MergeOutcome.Accounts H key atBottom first ms (some v) older rest
        (H.mergeBase key v keys ctx (.version key v) (versionsOf key older ++ rest)) := by
  have hlast := hheld.getLast_keys hfirst
  have hkeys : keys ≠ [] := by
    intro hnil
    rw [hnil] at hlast
    cases hlast
  have hbase : baseValue (some v) = if v.type = .value then some v.value else none := rfl
  unfold mergeBase timedFullMerge replaceAll
  rw [if_neg hkeys]
  dsimp only
  rw [← hbase, hheld.operands_eq, hlast]
  cases hmerge : H.userMergeOperator.fullMergeV2 key (baseValue (some v)) (operandsOf ms) with
  | none =>
      constructor
      · rfl
      · exact .unchanged (hheld.output .corruption _) fun _ => ⟨rfl, hmerge⟩
  | some r =>
      constructor
      · rfl
      · apply MergeOutcome.Accounts.full r (output_replaced _ _ _ _ _) hmerge
        intro h
        cases h

/-- A merge of all operands over nothing. -/
theorem mergeBeginning_accounts {first : KeyVersion} {ms : List KeyVersion} {o : MergeOutcome}
    {rest : List InternalEntry} (hheld : MergesHeld key ms o.keys o.mergeContext)
    (hfirst : ms.head? = some first) (hbottom : atBottom = true)
    (hrest : rest.head? ≠ some .corrupted) :
    (H.mergeBeginning key o).iter = o.iter ∧
      MergeOutcome.Accounts H key atBottom first ms none [] rest (H.mergeBeginning key o) := by
  unfold mergeBeginning timedFullMerge replaceAll
  rw [hheld.operands_eq, hheld.getLast_keys hfirst]
  cases hmerge : H.userMergeOperator.fullMergeV2 key none (operandsOf ms) with
  | none =>
      constructor
      · rfl
      · exact .unchanged (hheld.output .corruption _) fun h => (h rfl).elim
  | some r =>
      constructor
      · rfl
      · exact .full r (output_replaced _ _ _ _ _) hmerge fun _ => ⟨hbottom, rfl, hrest⟩

/-- A merge of all operands into one. -/
theorem mergeOperands_accounts {first : KeyVersion} {ms left : List KeyVersion}
    {o : MergeOutcome} {rest : List InternalEntry}
    (hheld : MergesHeld key ms o.keys o.mergeContext) (hfirst : ms.head? = some first)
    (hmerge : first.type = .merge) :
    (H.mergeOperands key o).iter = o.iter ∧
      MergeOutcome.Accounts H key atBottom first ms none left rest (H.mergeOperands key o) := by
  have hkept : MergeOutcome.Accounts H key atBottom first ms none left rest
      { o with status := .mergeInProgress } :=
    .unchanged (hheld.output .mergeInProgress _) fun h => (h rfl).elim
  unfold mergeOperands
  dsimp only
  split
  · rw [hheld.operands_eq]
    cases hpartial : H.userMergeOperator.partialMergeMulti key (operandsOf ms) with
    | none => exact ⟨rfl, hkept⟩
    | some r =>
        constructor
        · rfl
        · apply MergeOutcome.Accounts.together r _ hpartial rfl
          rw [hheld.getLast_keys hfirst, hmerge]
          exact output_replaced _ _ _ _ _
  · exact ⟨rfl, hkept⟩

/-- `MergeUntil` on a run of versions that begins with a merge. -/
theorem mergeUntil_accounts {first : KeyVersion} (hfirst : first.type = .merge)
    (tail : List KeyVersion) (stopBefore : ℕ) {rest : List InternalEntry}
    (hrest : ∀ k v, rest.head? = some (.version k v) → H.userComparator.compare k key ≠ .eq) :
    ∃ ms base left, ConsumedVersions stopBefore first tail ms base left ∧
      (H.mergeUntil stopBefore atBottom (versionsOf key (first :: tail) ++ rest)).iter =
        versionsOf key left ++ rest ∧
      MergeOutcome.Accounts H key atBottom first ms base left rest
        (H.mergeUntil stopBefore atBottom (versionsOf key (first :: tail) ++ rest)) := by
  have hheld : MergesHeld key [first] [⟨key, first.sequence, first.type⟩]
      (MergeContext.empty.pushOperand first.value) := ⟨rfl, by simp⟩
  obtain ⟨more, left, htail, hmore, hreached⟩ :=
    H.mergeLoop_reached key stopBefore hrest tail [first] _ _ hheld
  have hmerges : ∀ v ∈ first :: more, v.type = .merge := by
    intro v hv
    cases List.mem_cons.mp hv with
    | inl h => exact h ▸ hfirst
    | inr h => exact (hmore v h).1
  -- without a base, the merges are what is consumed
  have hconsumed : ConsumedVersions stopBefore first tail (first :: more) none left := by
    constructor
    · simp [htail]
    · rfl
    · exact hmerges
    · exact by rintro v ⟨⟩
    · intro v hv
      rw [Option.toList_none, List.append_nil, List.tail_cons] at hv
      exact (hmore v hv).2
  have hloop : H.mergeLoop key stopBefore true [] .empty
      (.version key first :: (versionsOf key tail ++ rest)) =
        H.mergeLoop key stopBefore false [⟨key, first.sequence, first.type⟩]
          (MergeContext.empty.pushOperand first.value) (versionsOf key tail ++ rest) :=
    H.mergeLoop_merge key stopBefore hfirst (Or.inl rfl)
  have hreturn : ∀ o, H.mergeLoop key stopBefore false [⟨key, first.sequence, first.type⟩]
      (MergeContext.empty.pushOperand first.value) (versionsOf key tail ++ rest) = .return o →
      H.mergeUntil stopBefore atBottom (versionsOf key (first :: tail) ++ rest) = o := by
    intro o he
    rw [← hloop] at he
    simp only [versionsOf, List.map_cons, List.cons_append, mergeUntil] at he ⊢
    rw [he]
  have hbreak : ∀ hit o, H.mergeLoop key stopBefore false [⟨key, first.sequence, first.type⟩]
      (MergeContext.empty.pushOperand first.value) (versionsOf key tail ++ rest) = .break hit o →
      H.mergeUntil stopBefore atBottom (versionsOf key (first :: tail) ++ rest) =
        if o.mergeContext.operands = [] then o
        else if (hit = true ∨ o.iter = []) ∧ atBottom = true then H.mergeBeginning key o
        else H.mergeOperands key o := by
    intro hit o he
    rw [← hloop] at he
    simp only [versionsOf, List.map_cons, List.cons_append, mergeUntil] at he ⊢
    rw [he]
  cases hend : H.mergeLoop key stopBefore false [⟨key, first.sequence, first.type⟩]
      (MergeContext.empty.pushOperand first.value) (versionsOf key tail ++ rest) with
  | «break» hit o =>
      rw [hend] at hreached
      rw [hbreak _ _ hend]
      cases hreached with
      | stopped hit keys ctx held whole =>
          have hne : ctx.operands ≠ [] := held.operands_eq ▸ operandsOf_ne_nil rfl
          refine ⟨first :: more, none, left, hconsumed, ?_⟩
          dsimp only
          rw [if_neg hne]
          by_cases hbeginning :
              (hit = true ∨ versionsOf key left ++ rest = []) ∧ atBottom = true
          · obtain ⟨rfl, hreadable⟩ := whole hbeginning.1
            rw [if_pos hbeginning]
            exact H.mergeBeginning_accounts key atBottom held rfl hbeginning.2 hreadable
          · rw [if_neg hbeginning]
            exact H.mergeOperands_accounts key atBottom held rfl hfirst
  | «return» o =>
      rw [hend] at hreached
      rw [hreturn _ hend]
      cases hreached with
      | base v older keys ctx held eq type_ne above =>
          refine ⟨first :: more, some v, older, ?_, H.mergeBase_accounts key atBottom held rfl⟩
          constructor
          · simp [htail, eq]
          · rfl
          · exact hmerges
          · intro w hw
            cases Option.mem_some.mp hw
            exact type_ne
          · intro w hw
            rw [List.cons_append, List.tail_cons] at hw
            cases List.mem_append.mp hw with
            | inl h => exact (hmore w h).2
            | inr h => exact List.mem_singleton.mp h ▸ above
      | unreadable keys ctx held eq =>
          refine ⟨first :: more, none, left, hconsumed, ?_, ?_⟩
          · rw [eq]
            rfl
          · exact .unchanged (held.output .corruption _) fun h => (h rfl).elim

end MergeHelper

/-! ### Reading over what is left -/

namespace MergeOperator

variable {op : MergeOperator} {u : Comparator} {key : Bytes} {older : Option Bytes}

theorem readOver_ne_nil (base : Option Bytes) {operands : List Bytes} (h : operands ≠ []) :
    op.readOver key base operands =
      match op.fullMergeV2 key base operands with
      | none => .corruption
      | some v => .found v := by
  unfold readOver
  rw [if_neg h]

/-- Operands that were merged over a base are a base of those above them. -/
theorem readOver_full (hop : op.Associative) {base : Option Bytes} {operands : List Bytes}
    (hne : operands ≠ []) {r : Bytes} (hr : op.fullMergeV2 key base operands = some r)
    (newer : List Bytes) :
    op.readOver key base (operands ++ newer) = op.readOver key (some r) newer := by
  by_cases hnewer : newer = []
  · rw [hnewer, List.append_nil, readOver_ne_nil base hne, hr]
    rfl
  · have happend : operands ++ newer ≠ [] := List.append_ne_nil_of_left_ne_nil hne newer
    rw [readOver_ne_nil base happend, readOver_ne_nil (some r) hnewer,
      hop.compose key base operands newer hne hnewer, hr, Option.bind_some]

theorem readOver_failed (hop : op.Associative) {base : Option Bytes} {operands : List Bytes}
    (hne : operands ≠ []) (hnone : op.fullMergeV2 key base operands = none)
    (newer : List Bytes) : op.readOver key base (operands ++ newer) = .corruption := by
  have happend : operands ++ newer ≠ [] := List.append_ne_nil_of_left_ne_nil hne newer
  rw [readOver_ne_nil base happend]
  by_cases hnewer : newer = []
  · rw [hnewer, List.append_nil, hnone]
  · rw [hop.compose key base operands newer hne hnewer, hnone, Option.bind_none]

/-- One operand stands for all those that were merged into it. -/
theorem fullMergeV2_together (hop : op.Associative) {operands : List Bytes} {p : Bytes}
    (hne : operands ≠ []) (hp : op.partialMergeMulti key operands = some p)
    (below : List Bytes) (base : Option Bytes) (newer : List Bytes) :
    op.fullMergeV2 key base (below ++ ([p] ++ newer)) =
      op.fullMergeV2 key base (below ++ (operands ++ newer)) := by
  have habove : ∀ base, op.fullMergeV2 key base ([p] ++ newer) =
      op.fullMergeV2 key base (operands ++ newer) := by
    intro base
    have hagrees := hop.agrees key operands p hp hne base
    by_cases hnewer : newer = []
    · rw [hnewer, List.append_nil, List.append_nil, hagrees]
    · rw [hop.compose key base [p] newer (List.cons_ne_nil _ _) hnewer,
        hop.compose key base operands newer hne hnewer, hagrees]
  by_cases hbelow : below = []
  · rw [hbelow, List.nil_append, List.nil_append, habove]
  · rw [hop.compose key base below ([p] ++ newer) hbelow (List.cons_ne_nil p newer),
      hop.compose key base below _ hbelow (List.append_ne_nil_of_left_ne_nil hne newer)]
    exact congrArg _ (funext fun v => habove (some v))

/-- Reading goes on over operands that stand for each other, under any that are older. -/
theorem read_congr {operands operands' : List Bytes}
    (h : ∀ base below, op.readOver key base (below ++ operands) =
      op.readOver key base (below ++ operands'))
    (entries : List InternalEntry) :
    op.read u key older operands entries = op.read u key older operands' entries := by
  induction entries generalizing operands operands' with
  | nil =>
      rw [read, read]
      exact h older []
  | cons e entries ih =>
      cases e with
      | corrupted => rw [read, read]
      | version userKey v =>
          rw [read, read]
          by_cases hkey : u.compare userKey key ≠ .eq
          · rw [if_pos hkey, if_pos hkey]
            exact h older []
          · rw [if_neg hkey, if_neg hkey]
            cases v.type with
            | merge =>
                apply ih
                intro base below
                have hbelow := h base (below ++ [v.value])
                rw [List.append_assoc, List.append_assoc] at hbelow
                exact hbelow
            | value => exact h (some v.value) []
            | _ => exact h none []

/-- The operands of merges are added under those found so far. -/
theorem read_merges (hself : u.compare key key = .eq) {ms : List KeyVersion}
    (hms : ∀ v ∈ ms, v.type = .merge) (newer : List Bytes) (entries : List InternalEntry) :
    op.read u key older newer (versionsOf key ms ++ entries) =
      op.read u key older (operandsOf ms ++ newer) entries := by
  induction ms generalizing newer with
  | nil => rfl
  | cons v ms ih =>
      have hv := hms v List.mem_cons_self
      have hstep : op.read u key older newer (versionsOf key (v :: ms) ++ entries) =
          op.read u key older (v.value :: newer) (versionsOf key ms ++ entries) := by
        rw [versionsOf, List.map_cons, List.cons_append, read, if_neg (not_not_intro hself), hv]
        rfl
      rw [hstep, ih (fun w hw => hms w (List.mem_cons_of_mem v hw))]
      simp [operandsOf]

/-- A version that is not a merge ends the reading. -/
theorem read_base (hself : u.compare key key = .eq) {v : KeyVersion} (hv : v.type ≠ .merge)
    (operands : List Bytes) (entries : List InternalEntry) :
    op.read u key older operands (.version key v :: entries) =
      op.readOver key (baseValue (some v)) operands := by
  have hbase : baseValue (some v) = if v.type = .value then some v.value else none := rfl
  rw [read, if_neg (not_not_intro hself), hbase]
  cases htype : v.type with
  | merge => exact absurd htype hv
  | value => rw [if_pos rfl]
  | _ => rfl

/-- What does not begin with the key gives what is below. -/
theorem read_rest {rest : List InternalEntry}
    (hrest : ∀ k v, rest.head? = some (.version k v) → u.compare k key ≠ .eq)
    (hreadable : rest.head? ≠ some .corrupted) (operands : List Bytes) :
    op.read u key older operands rest = op.readOver key older operands := by
  cases rest with
  | nil => rw [read]
  | cons e rest =>
      cases e with
      | corrupted => exact absurd rfl hreadable
      | version k v => rw [read, if_pos (hrest k v rfl)]

end MergeOperator

namespace MergeOutcome

/-- Merges that are given out as they are. -/
theorem entries_of_merges {o : MergeOutcome} {key : Bytes} {ms : List KeyVersion}
    (h : o.output = ms.map fun v => (⟨key, v.sequence, v.type⟩, v.value)) :
    o.entries = versionsOf key ms := by
  unfold entries versionsOf
  rw [h, List.map_map]
  apply List.map_congr_left
  intro v _
  exact dif_pos v.type_mem

theorem entries_of_single {o : MergeOutcome} {k : ParsedInternalKey} {r : Bytes}
    (h : o.output = [(k, r)]) (hk : k.type ∈ pointTypes) :
    o.entries = [.version k.userKey ⟨k.sequence, k.type, r, hk⟩] := by
  unfold entries
  rw [h, List.map_singleton, dif_pos hk]

end MergeOutcome

namespace MergeHelper

variable (H : MergeHelper) (key : Bytes)

/-- With the versions accounted for, `key` reads the same, or the read fails over the versions
and the call has failed too. -/
theorem read_of_accounts (hop : H.userMergeOperator.Associative) {stopBefore : ℕ}
    {atBottom : Bool} {first : KeyVersion} {tail ms left : List KeyVersion}
    {base : Option KeyVersion} {rest : List InternalEntry} {o : MergeOutcome}
    {older : Option Bytes}
    (hconsumed : ConsumedVersions stopBefore first tail ms base left)
    (hiter : o.iter = versionsOf key left ++ rest)
    (haccounts : MergeOutcome.Accounts H key atBottom first ms base left rest o)
    (hrest : ∀ k v, rest.head? = some (.version k v) → H.userComparator.compare k key ≠ .eq)
    (hbottom : atBottom = true → older = none) (newer : List Bytes) :
    H.userMergeOperator.read H.userComparator key older newer (o.entries ++ o.iter) =
        H.userMergeOperator.read H.userComparator key older newer
          (versionsOf key (first :: tail) ++ rest) ∨
      o.status = .corruption ∧
        H.userMergeOperator.read H.userComparator key older newer
          (versionsOf key (first :: tail) ++ rest) = .corruption := by
  have hself := H.compare_self key
  have hne : operandsOf ms ≠ [] := operandsOf_ne_nil hconsumed.newest
  -- the versions, as the merges over what is under them
  have hinput : H.userMergeOperator.read H.userComparator key older newer
      (versionsOf key (first :: tail) ++ rest) =
        H.userMergeOperator.read H.userComparator key older (operandsOf ms ++ newer)
          (versionsOf key base.toList ++ o.iter) := by
    rw [← MergeOperator.read_merges hself hconsumed.merges, hconsumed.split, hiter]
    simp [versionsOf]
  rw [hinput]
  cases haccounts with
  | unchanged output failed =>
      rw [MergeOutcome.entries_of_merges output,
        MergeOperator.read_merges hself hconsumed.merges]
      cases base with
      | none => exact Or.inl rfl
      | some v =>
          obtain ⟨hstatus, hnone⟩ := failed (Option.some_ne_none v)
          refine Or.inr ⟨hstatus, ?_⟩
          have hv := hconsumed.base_ne v rfl
          rw [← MergeOperator.readOver_failed hop hne hnone newer]
          exact MergeOperator.read_base hself hv _ _
  | full r output merged beginning =>
      left
      have htype : ValueType.value ∈ pointTypes := by decide
      have hr : baseValue (some ⟨first.sequence, .value, r, htype⟩) = some r := rfl
      rw [MergeOutcome.entries_of_single output htype, List.singleton_append,
        MergeOperator.read_base hself (by simp), hr,
        ← MergeOperator.readOver_full hop hne merged newer]
      cases base with
      | none =>
          obtain ⟨hat, rfl, hreadable⟩ := beginning rfl
          have hread : H.userMergeOperator.read H.userComparator key older
              (operandsOf ms ++ newer) rest =
                H.userMergeOperator.readOver key older (operandsOf ms ++ newer) :=
            MergeOperator.read_rest hrest hreadable (operandsOf ms ++ newer)
          rw [hiter]
          rw [hbottom hat] at hread ⊢
          exact hread.symm
      | some v => exact (MergeOperator.read_base hself (hconsumed.base_ne v rfl) _ _).symm
  | together r output merged no_base =>
      left
      have htype : ValueType.merge ∈ pointTypes := by decide
      have hmerge : ∀ v ∈ [KeyVersion.mk first.sequence .merge r htype], v.type = .merge := by
        simp
      have hread : H.userMergeOperator.read H.userComparator key older newer
          (versionsOf key [⟨first.sequence, .merge, r, htype⟩] ++ o.iter) =
            H.userMergeOperator.read H.userComparator key older ([r] ++ newer) o.iter :=
        MergeOperator.read_merges hself hmerge newer o.iter
      have hstands : ∀ base below,
          H.userMergeOperator.readOver key base (below ++ ([r] ++ newer)) =
            H.userMergeOperator.readOver key base (below ++ (operandsOf ms ++ newer)) := by
        intro base below
        have heq := MergeOperator.fullMergeV2_together hop hne merged below base newer
        have hnil : below ++ ([r] ++ newer) ≠ [] := by simp
        have hnil' : below ++ (operandsOf ms ++ newer) ≠ [] := by simp [hne]
        rw [MergeOperator.readOver_ne_nil base hnil, MergeOperator.readOver_ne_nil base hnil', heq]
      rw [MergeOutcome.entries_of_single output htype, no_base]
      exact hread.trans (MergeOperator.read_congr hstands o.iter)

/-- **Merging preserves what is read, and no operand is lost, doubled or reordered.** On a run of
versions that begins with a merge, each is consumed or left. The output has the merges consumed
as they were, or one entry at the newest with all their operands merged, oldest first. Over the
output and what is left, a read with any newer operands gives the same; or the merge over a
version failed, and so does the read over the versions. -/
theorem mergeUntil_preserves (hop : H.userMergeOperator.Associative) {first : KeyVersion}
    (hfirst : first.type = .merge) (tail : List KeyVersion) (stopBefore : ℕ) (atBottom : Bool)
    {rest : List InternalEntry}
    (hrest : ∀ k v, rest.head? = some (.version k v) → H.userComparator.compare k key ≠ .eq)
    {older : Option Bytes} (hbottom : atBottom = true → older = none) :
    let o := H.mergeUntil stopBefore atBottom (versionsOf key (first :: tail) ++ rest)
    (∃ ms base left, ConsumedVersions stopBefore first tail ms base left ∧
      o.iter = versionsOf key left ++ rest ∧
      MergeOutcome.Accounts H key atBottom first ms base left rest o) ∧
    ∀ newer, H.userMergeOperator.read H.userComparator key older newer (o.entries ++ o.iter) =
        H.userMergeOperator.read H.userComparator key older newer
          (versionsOf key (first :: tail) ++ rest) ∨
      o.status = .corruption ∧
        H.userMergeOperator.read H.userComparator key older newer
          (versionsOf key (first :: tail) ++ rest) = .corruption := by
  obtain ⟨ms, base, left, hconsumed, hiter, haccounts⟩ :=
    H.mergeUntil_accounts key atBottom hfirst tail stopBefore hrest
  constructor
  · exact ⟨ms, base, left, hconsumed, hiter, haccounts⟩
  · exact H.read_of_accounts key hop hconsumed hiter haccounts hrest hbottom

/-- A helper whose operator appends. -/
def appendHelper : MergeHelper := ⟨bytewiseComparator, appendOperator.toMergeOperator false, true⟩

theorem appendHelper_associative : appendHelper.userMergeOperator.Associative := by
  apply AssociativeMergeOperator.associative
  intro key base left right
  simp [appendOperator]

theorem mergeUntil_preserves_appends :
    let versions := versionsOf [1] [⟨5, .merge, [12], by decide⟩, ⟨4, .merge, [11], by decide⟩,
      ⟨3, .value, [10], by decide⟩]
    let o := appendHelper.mergeUntil 3 false (versions ++ [])
    o.entries = [.version [1] ⟨5, .merge, [11, 12], by decide⟩] ∧
    appendHelper.userMergeOperator.read bytewiseComparator [1] none [[13]]
      (o.entries ++ o.iter) = .found [10, 11, 12, 13] := by
  have hfirst : (KeyVersion.mk 5 .merge [12] (by decide)).type = .merge := rfl
  have hrest : ∀ k v, ([] : List InternalEntry).head? = some (.version k v) →
      appendHelper.userComparator.compare k [1] ≠ .eq := nofun
  have hbottom : false = true → (none : Option Bytes) = none := fun _ => rfl
  obtain ⟨_, hread⟩ := appendHelper.mergeUntil_preserves [1] appendHelper_associative hfirst
    [⟨4, .merge, [11], by decide⟩, ⟨3, .value, [10], by decide⟩] 3 false hrest hbottom
  constructor
  · decide +kernel
  · cases hread [[13]] with
    | inl h => exact h.trans (by decide +kernel)
    | inr h => exact absurd h.1 (by decide +kernel)

end MergeHelper

end Tweezer
