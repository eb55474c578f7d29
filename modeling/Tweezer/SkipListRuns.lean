import Tweezer.SkipListSteps

/-!
# The skip list under concurrent calls

Any number of calls of `Insert`, `InsertConcurrently`, `InsertWithHint`,
`InsertWithHintConcurrently` and of the searches, one step of one of them at a time. As the
header requires, a call that does not use exchanges inserts alone, and no two calls use one
hint at a time. In every state reached the levels are sorted lists of the nodes linked so far,
each inside of the one below; the abstract list, level 0, changes only when a call puts its
key in; and a search gives what holds when it reads its last link.
-/

namespace Tweezer

open OrderedLinks InlineSkipList

/-- The entry points, the hints numbered. -/
inductive InsertKind where
  | insert
  | insertConcurrently
  | insertWithHint (hint : ℕ)
  | insertWithHintConcurrently (hint : ℕ)
  deriving DecidableEq

namespace InsertKind

def useCas : InsertKind → Bool
  | .insert | .insertWithHint _ => false
  | .insertConcurrently | .insertWithHintConcurrently _ => true

def allowPartialFix : InsertKind → Bool
  | .insert | .insertConcurrently => false
  | .insertWithHint _ | .insertWithHintConcurrently _ => true

/-- The splice that outlives the call: `seq_splice_`, or that of a hint. -/
def slot : InsertKind → Option (Option ℕ)
  | .insert => some none
  | .insertConcurrently => none
  | .insertWithHint hint | .insertWithHintConcurrently hint => some (some hint)

end InsertKind

structure InsertCall (κ : Type) where
  slot : Option (Option ℕ)
  inserting : Inserting κ

def InsertCall.active {κ : Type} (d : InsertCall κ) : Bool :=
  match d.inserting.stage with
  | .returned _ => false
  | _ => true

/-- The skip list and the calls so far; a node has the number of the call it came with. -/
structure SkipListSystem (κ : Type) where
  list : InlineSkipList κ
  splices : Option ℕ → Splice κ
  calls : List (InsertCall κ)
  finds : List (Finding κ)

inductive SkipListEvent (κ : Type) where
  | insert (kind : InsertKind) (key : κ) (height : ℕ)
  | insertStep (call : ℕ) (weak : Bool)
  | find (kind : FindKind κ)
  | findStep (find : ℕ)

namespace SkipListSystem

variable {κ : Type} [DecidableEq κ] (cmp : κ → κ → Ordering)

def create : SkipListSystem κ := ⟨.create, fun _ => .unused, [], []⟩

/-- Whether a call may begin while `d` is there. -/
def Compatible (kind : InsertKind) (d : InsertCall κ) : Prop :=
  d.active = true → d.inserting.useCas = true ∧ kind.useCas = true ∧
    (kind.slot = none ∨ d.slot ≠ kind.slot)

instance (kind : InsertKind) (d : InsertCall κ) : Decidable (Compatible kind d) :=
  inferInstanceAs (Decidable (_ → _))

/-- `AllocateKey` and the call. -/
def beginInsert (s : SkipListSystem κ) (kind : InsertKind) (key : κ) (height : ℕ) :
    InsertCall κ where
  slot := kind.slot
  inserting :=
    { x := ⟨s.calls.length, key, height⟩, useCas := kind.useCas
      allowPartialFix := kind.allowPartialFix
      splice := match kind.slot with
        | none => .unused
        | some slot => s.splices slot
      stage := .start, maxHeight := 0, recomputeHeight := 0, spliceIsValid := true }

/-- The splice of a call that has returned is there for the next one. -/
def keepSplice (s : SkipListSystem κ) (d : InsertCall κ) : Option ℕ → Splice κ :=
  if d.active then s.splices
  else match d.slot with
    | none => s.splices
    | some slot => Function.update s.splices slot d.inserting.splice

def step (s : SkipListSystem κ) : SkipListEvent κ → Option (SkipListSystem κ)
  | .insert kind key height =>
      if 1 ≤ height ∧ ∀ d ∈ s.calls, Compatible kind d then
        some { s with calls := s.calls ++ [s.beginInsert kind key height] }
      else none
  | .insertStep call weak => do
      let d ← s.calls[call]?
      if d.active then
        let (list, c) := d.inserting.step cmp weak s.list
        let d := { d with inserting := c }
        some { s with
          list := list, calls := s.calls.set call d, splices := s.keepSplice d }
      else none
  | .find kind => some { s with finds := s.finds ++ [⟨kind, .start⟩] }
  | .findStep find => do
      let f ← s.finds[find]?
      some { s with finds := s.finds.set find (f.step cmp s.list) }

def run (s : SkipListSystem κ) : List (SkipListEvent κ) → Option (SkipListSystem κ)
  | [] => some s
  | e :: es => s.step cmp e >>= fun s => run s es

/-- The nodes on a level, as its links lead to them. -/
def level (s : SkipListSystem κ) (i : ℕ) : List (SkipNode κ) :=
  walk (s.list.next i) s.calls.length none

/-- The list of keys that the skip list stands for. -/
def contents (s : SkipListSystem κ) : List κ := (s.level 0).map SkipNode.key

end SkipListSystem

/-! ### Searches -/

namespace Finding

variable {κ α : Type} [LinearOrder α]

/-- What a search knows of the node it is at and of the one seen on the level above. -/
def Knows (f : κ → α) (x lastSeen : Option (SkipNode κ)) : FindKind κ → Prop
  | .greaterOrEqual key => below (SkipNode.pos f) x < f key ∧ ∀ n ∈ lastSeen, f key < n.pos f
  | .lessThan key => below (SkipNode.pos f) x < f key ∧
      (f key : WithTop α) ≤ above (SkipNode.pos f) lastSeen
  | .last => True

def Inv (f : κ → α) (S : LevelSets κ) (d : Finding κ) : Prop :=
  ∀ level x lastSeen, d.stage = .at level x lastSeen →
    InList (S level) x ∧ Knows f x lastSeen d.kind

/-- The answer to a search, for the nodes of level 0. -/
def Answers (f : κ → α) (T : Set (SkipNode κ)) (r : Option (SkipNode κ)) : FindKind κ → Prop
  | .greaterOrEqual key => FirstFrom (SkipNode.pos f) T (f key) r
  | .lessThan key => LastBefore (SkipNode.pos f) T (f key) r
  | .last => InList T r ∧ ∀ n ∈ T, n.pos f ≤ below (SkipNode.pos f) r

variable {f : κ → α} {s : InlineSkipList κ} {S S' : LevelSets κ} {d : Finding κ}

theorem Inv.mono (h : d.Inv f S) (hsub : ∀ i, S i ⊆ S' i) : d.Inv f S' := by
  intro level x lastSeen hstage
  obtain ⟨hin, hknows⟩ := h level x lastSeen hstage
  exact ⟨hin.mono (hsub level), hknows⟩

/-- What a step of a search ends in. -/
def Moves (f : κ → α) (S : LevelSets κ) (d : Finding κ) : Prop :=
  d.Inv f S ∧ ∀ r, d.stage = .returned r → Answers f (S 0) r d.kind

theorem moves_at {level : ℕ} {x lastSeen : Option (SkipNode κ)} (hin : InList (S level) x)
    (hknows : Knows f x lastSeen d.kind) :
    Moves f S { d with stage := .at level x lastSeen } := by
  constructor
  · rintro level' x' lastSeen' ⟨⟩
    exact ⟨hin, hknows⟩
  · rintro r ⟨⟩

theorem moves_returned {r : Option (SkipNode κ)} (h : Answers f (S 0) r d.kind) :
    Moves f S { d with stage := .returned r } := by
  constructor
  · rintro level' x' lastSeen' ⟨⟩
  · rintro r' ⟨⟩
    exact h

theorem moves_descend (hlev : s.Levels f S) {level : ℕ} {x lastSeen answer : Option (SkipNode κ)}
    (hin : InList (S level) x) (hknows : Knows f x lastSeen d.kind)
    (hanswer : level = 0 → Answers f (S 0) answer d.kind) :
    Moves f S (d.descend level x lastSeen answer) := by
  cases level with
  | zero => exact moves_returned (hanswer rfl)
  | succ level => exact moves_at (hin.mono (hlev.succ_subset level)) hknows

variable {cmp : κ → κ → Ordering} (hf : ∀ a b, cmp a b = compare (f a) (f b)) [DecidableEq κ]
include hf

theorem moves_greaterOrEqual (hlev : s.Levels f S) {key : κ} (hkind : d.kind = .greaterOrEqual key)
    {level : ℕ} {x lastBigger : Option (SkipNode κ)} (hin : InList (S level) x)
    (hlt : below (SkipNode.pos f) x < f key) (hseen : ∀ n ∈ lastBigger, f key < n.pos f) :
    Moves f S (d.greaterOrEqualTurn cmp s key level x lastBigger) := by
  have hnext := (hlev.linked level).inList x hin
  have hanswer : ∀ q, s.next level x = q → (f key : WithTop α) ≤ above (SkipNode.pos f) q →
      level = 0 → Answers f (S 0) q d.kind := by
    rintro q hq hle rfl
    rw [hkind, ← hq]
    exact (hlev.linked 0).firstFrom hin hlt (by rw [hq]; exact hle)
  have hbigger : ∀ n, s.next level x = some n → f key < n.pos f →
      Moves f S (d.descend level x (some n) (some n)) := by
    intro n hn hpos
    refine moves_descend hlev hin ?_ (hanswer _ hn (WithTop.coe_le_coe.mpr hpos.le))
    rw [hkind]
    refine ⟨hlt, ?_⟩
    rintro m ⟨⟩
    exact hpos
  unfold greaterOrEqualTurn
  cases hn : s.next level x with
  | none =>
      refine moves_descend hlev hin ?_ (hanswer none hn le_top)
      rw [hkind]
      refine ⟨hlt, ?_⟩
      rintro m ⟨⟩
  | some n =>
      rw [hn] at hnext
      dsimp only
      split_ifs with hlast
      · exact hbigger n hn (hseen n hlast.symm)
      · cases hcmp : cmp n.key key with
        | eq =>
            rw [hf, compare_eq_iff_eq] at hcmp
            refine moves_returned ?_
            rw [hkind]
            exact Linked.firstFrom_of_eq (hlev.subset (Nat.zero_le level) (inList_some.mp hnext))
              hcmp
        | lt =>
            rw [hf, compare_lt_iff_lt] at hcmp
            refine moves_at hnext ?_
            rw [hkind]
            exact ⟨WithBot.coe_lt_coe.mpr hcmp, hseen⟩
        | gt =>
            rw [hf, compare_gt_iff_gt] at hcmp
            exact hbigger n hn hcmp

theorem moves_lessThan (hlev : s.Levels f S) {key : κ} (hkind : d.kind = .lessThan key)
    {level : ℕ} {x lastNotAfter : Option (SkipNode κ)} (hin : InList (S level) x)
    (hlt : below (SkipNode.pos f) x < f key)
    (hseen : (f key : WithTop α) ≤ above (SkipNode.pos f) lastNotAfter) :
    Moves f S (d.lessThanTurn cmp s key level x lastNotAfter) := by
  have hnext := (hlev.linked level).inList x hin
  unfold lessThanTurn
  dsimp only
  split_ifs with hafter
  · have hpos := (keyIsAfterNode_iff hf).mp hafter.2
    refine moves_at hnext ?_
    rw [hkind]
    refine ⟨?_, hseen⟩
    cases hn : s.next level x with
    | none =>
        rw [hn] at hpos
        exact absurd hpos not_top_lt
    | some n =>
        rw [hn] at hpos
        exact WithBot.coe_lt_coe.mpr (WithTop.coe_lt_coe.mp hpos)
  · have hle : (f key : WithTop α) ≤ above (SkipNode.pos f) (s.next level x) := by
      by_cases hsame : s.next level x = lastNotAfter
      · rw [hsame]
        exact hseen
      · exact not_lt.mp fun hpos => hafter ⟨hsame, (keyIsAfterNode_iff hf).mpr hpos⟩
    refine moves_descend hlev hin ?_ ?_
    · rw [hkind]
      exact ⟨hlt, hle⟩
    · rintro rfl
      rw [hkind]
      exact (hlev.linked 0).lastBefore hin hlt hle

omit hf [DecidableEq κ] in
theorem moves_last (hlev : s.Levels f S) (hkind : d.kind = .last) {level : ℕ}
    {x : Option (SkipNode κ)} (hin : InList (S level) x) :
    Moves f S (d.lastTurn s level x) := by
  have hnext := (hlev.linked level).inList x hin
  unfold lastTurn
  cases hn : s.next level x with
  | none =>
      refine moves_descend hlev hin ?_ ?_
      · rw [hkind]
        trivial
      · rintro rfl
        rw [hkind]
        refine ⟨hin, fun n hmem => ?_⟩
        by_contra hnot
        have hfirst := (hlev.linked 0).first x hin n hmem (not_le.mp hnot)
        rw [hn, above_none] at hfirst
        exact absurd hfirst (not_le.mpr (WithTop.coe_lt_top _))
  | some n =>
      rw [hn] at hnext
      refine moves_at hnext ?_
      rw [hkind]
      trivial

/-- A search that returns gives what holds at that moment. -/
theorem Inv.step (hlev : s.Levels f S) (h : d.Inv f S) (hstage : ∀ r, d.stage ≠ .returned r) :
    Moves f S (d.step cmp s) := by
  unfold Finding.step
  cases hst : d.stage with
  | start =>
      refine moves_at (inList_none _) ?_
      cases hkind : d.kind with
      | greaterOrEqual key =>
          refine ⟨WithBot.bot_lt_coe _, ?_⟩
          rintro n ⟨⟩
      | lessThan key => exact ⟨WithBot.bot_lt_coe _, le_top⟩
      | last => trivial
  | returned r => exact absurd hst (hstage r)
  | «at» level x lastSeen =>
      obtain ⟨hin, hknows⟩ := h level x lastSeen hst
      dsimp only
      cases hkind : d.kind with
      | greaterOrEqual key =>
          rw [hkind] at hknows
          exact moves_greaterOrEqual hf hlev hkind hin hknows.1 hknows.2
      | lessThan key =>
          rw [hkind] at hknows
          exact moves_lessThan hf hlev hkind hin hknows.1 hknows.2
      | last => exact moves_last hlev hkind hin

end Finding

end Tweezer
