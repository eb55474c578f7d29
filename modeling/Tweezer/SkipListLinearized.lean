import Tweezer.SkipListContents

/-!
# The skip list as one sorted list

What callers of the skip list may think of: a sorted list of keys into which a call of `Insert`
puts its key at one moment, unless an equal one is there, and that a search reads at one moment.
Every run of the skip list, with any number of calls between each other, is a run of this list,
in which the moment of a call is one of the call's own steps.
-/

namespace Tweezer

open OrderedLinks InlineSkipList

/-- A sorted list of keys and what the calls on it gave. -/
structure AtomicList (κ : Type) where
  contents : List κ
  inserts : List (κ × Option Bool)
  searches : List (FindKind κ × Option (Option κ))

inductive AtomicEvent (κ : Type) where
  | begin (key : κ)
  | apply (call : ℕ)
  | search (kind : FindKind κ)
  | answer (find : ℕ)

namespace AtomicList

variable {κ : Type} (cmp : κ → κ → Ordering)

def create : AtomicList κ := ⟨[], [], []⟩

/-- What a search gives. -/
def find (contents : List κ) : FindKind κ → Option κ
  | .greaterOrEqual key => contents.find? fun a => cmp a key != .lt
  | .lessThan key => contents.reverse.find? fun a => cmp a key == .lt
  | .last => contents.getLast?

/-- A call takes effect once: it puts its key in, or finds an equal one. -/
def step (l : AtomicList κ) : AtomicEvent κ → Option (AtomicList κ)
  | .begin key => some { l with inserts := l.inserts ++ [(key, none)] }
  | .apply call => do
      let (key, result) ← l.inserts[call]?
      if result = none then
        match OrderedCursor.insert cmp key l.contents with
        | none => some { l with inserts := l.inserts.set call (key, some false) }
        | some contents => some { l with
            contents := contents, inserts := l.inserts.set call (key, some true) }
      else none
  | .search kind => some { l with searches := l.searches ++ [(kind, none)] }
  | .answer i => do
      let (kind, result) ← l.searches[i]?
      if result = none then
        some { l with searches := l.searches.set i (kind, some (find cmp l.contents kind)) }
      else none

def run (l : AtomicList κ) : List (AtomicEvent κ) → Option (AtomicList κ)
  | [] => some l
  | e :: es => l.step cmp e >>= fun l => run l es

theorem run_append {l l' : AtomicList κ} {es : List (AtomicEvent κ)} (h : l.run cmp es = some l')
    (es' : List (AtomicEvent κ)) : l.run cmp (es ++ es') = l'.run cmp es' := by
  induction es generalizing l with
  | nil =>
      obtain rfl := Option.some.inj h
      rfl
  | cons e es ih =>
      obtain ⟨l₁, he, h⟩ := Option.bind_eq_some_iff.mp h
      rw [List.cons_append, run, he, Option.bind_eq_bind, Option.bind_some]
      exact ih h

theorem run_singleton (l : AtomicList κ) (e : AtomicEvent κ) : l.run cmp [e] = l.step cmp e := by
  rw [run]
  cases l.step cmp e with
  | none => rfl
  | some l' => rfl

end AtomicList

/-! ### The list that a skip list stands for -/

variable {κ : Type}

/-- What a call has come to: its node is in once level 0 is linked. -/
def Inserting.result (c : Inserting κ) : Option Bool :=
  match c.stage with
  | .returned inserted => some inserted
  | .link level | .again level _ => if 0 < level then some true else none
  | _ => none

def Finding.result (d : Finding κ) : Option (Option κ) :=
  match d.stage with
  | .returned node => some (node.map SkipNode.key)
  | _ => none

def InsertCall.atomic (d : InsertCall κ) : κ × Option Bool :=
  (d.inserting.x.key, d.inserting.result)

def Finding.atomic (d : Finding κ) : FindKind κ × Option (Option κ) := (d.kind, d.result)

def SkipListSystem.atomic (s : SkipListSystem κ) : AtomicList κ :=
  ⟨s.contents, s.calls.map InsertCall.atomic, s.finds.map Finding.atomic⟩

def SkipListEvent.atomic : SkipListEvent κ → AtomicEvent κ
  | .insert _ key _ => .begin key
  | .insertStep call _ => .apply call
  | .find kind => .search kind
  | .findStep i => .answer i

variable {α : Type} [LinearOrder α] {f : κ → α} {S S' : LevelSets κ} {s s' : SkipListSystem κ}

/-- A call has put its node in when it says so. -/
theorem Inserting.Inv.result_eq_true {list : InlineSkipList κ} {c : Inserting κ}
    (h : c.Inv f list S) : c.result = some true ↔ c.x ∈ S 0 := by
  obtain ⟨hheight, h⟩ := h
  have hnone : c.x ∉ S 0 → ((none : Option Bool) = some true ↔ c.x ∈ S 0) := fun hx =>
    ⟨fun heq => (by cases heq), fun hmem => absurd hmem hx⟩
  have hlinked : ∀ level, (c.x ∈ S 0 ↔ 0 < level) →
      ((if 0 < level then some true else none) = some true ↔ c.x ∈ S 0) := by
    intro level hlevel
    rw [hlevel]
    split_ifs with hpos
    · exact ⟨fun _ => hpos, fun _ => rfl⟩
    · exact ⟨fun heq => (by cases heq), fun hmem => absurd hmem hpos⟩
  unfold Inserting.result
  cases hstage : c.stage with
  | start =>
      rw [hstage] at h
      exact hnone (h.2.1 0)
  | raise m =>
      rw [hstage] at h
      exact hnone (h.2.1 0)
  | validate r =>
      rw [hstage] at h
      exact hnone (h.2.2.1 0)
  | search level before after =>
      rw [hstage] at h
      exact hnone (h.unlinked 0)
  | link level =>
      rw [hstage] at h
      exact hlinked level (h.linked 0)
  | again level before =>
      rw [hstage] at h
      exact hlinked level (h.1.linked 0)
  | returned inserted =>
      rw [hstage] at h
      cases inserted with
      | true => exact ⟨fun _ => (h.2 0).mpr hheight, fun _ => rfl⟩
      | false =>
          dsimp only
          refine ⟨fun heq => ?_, fun hmem => absurd hmem (h.2.1 0)⟩
          cases heq

theorem Inserting.result_eq_false {c : Inserting κ} (h : c.result = some false) :
    c.stage = .returned false := by
  unfold Inserting.result at h
  cases hstage : c.stage with
  | returned inserted =>
      rw [hstage] at h
      rw [Option.some.inj h]
  | link level | again level before =>
      rw [hstage] at h
      dsimp only at h
      split_ifs at h
      cases h
  | _ =>
      rw [hstage] at h
      cases h

/-- What a step of a call does to the nodes of level 0. -/
theorem Inserting.Stepped.puts {list list' : InlineSkipList κ} {c c' : Inserting κ}
    (hstep : Stepped f list list' S S' c c') (h : c.Inv f list S) :
    S' 0 = S 0 ∨ c.x ∉ S 0 ∧ S' 0 = insert c.x (S 0) := by
  rcases hstep.sets with heq | ⟨k, hstage, heq⟩
  · exact Or.inl (by rw [heq])
  · by_cases hk : k = 0
    · subst hk
      refine Or.inr ⟨?_, by rw [heq, Function.update_self]⟩
      have hlink := h.2
      rw [hstage] at hlink
      exact fun hmem => absurd ((hlink.linked 0).mp hmem) (lt_irrefl 0)
    · exact Or.inl (by rw [heq, Function.update_of_ne (Ne.symm hk)])

theorem Finding.step_kind [DecidableEq κ] (cmp : κ → κ → Ordering) (list : InlineSkipList κ)
    (d : Finding κ) : (d.step cmp list).kind = d.kind := by
  unfold Finding.step greaterOrEqualTurn lessThanTurn lastTurn descend
  grind

namespace SkipListSystem

variable [DecidableEq κ] {cmp : κ → κ → Ordering} (hf : ∀ a b, cmp a b = compare (f a) (f b))
include hf

omit [DecidableEq κ] in
/-- A search that holds of level 0 holds of the list. -/
theorem Inv.find_contents (h : s.Inv f S) {kind : FindKind κ} {r : Option (SkipNode κ)}
    (hr : Finding.Answers f (S 0) r kind) :
    r.map SkipNode.key = AtomicList.find cmp s.contents kind := by
  have hmem : ∀ n : SkipNode κ, n ∈ S 0 → n.key ∈ s.contents := fun n hn =>
    h.mem_contents.mpr ⟨n, hn, rfl⟩
  cases kind with
  | greaterOrEqual key =>
      obtain ⟨hin, hle, hfirst⟩ := hr
      have hp : ∀ a, (cmp a key != .lt) = true ↔ f key ≤ f a := by
        intro a
        rw [hf, bne_iff_ne, ne_eq, compare_lt_iff_lt, not_lt]
      symm
      unfold AtomicList.find
      cases r with
      | none =>
          rw [Option.map_none, List.find?_eq_none]
          intro a ha hpa
          obtain ⟨n, hn, rfl⟩ := h.mem_contents.mp ha
          exact absurd (hfirst n hn ((hp _).mp hpa)) (not_le.mpr (WithTop.coe_lt_top _))
      | some n =>
          rw [Option.map_some]
          refine find?_eq_some h.contents_sorted (hmem n (inList_some.mp hin))
            ((hp _).mpr (WithTop.coe_le_coe.mp hle)) fun a ha hpa => ?_
          obtain ⟨m, hm, rfl⟩ := h.mem_contents.mp ha
          exact WithTop.coe_le_coe.mp (hfirst m hm ((hp _).mp hpa))
  | lessThan key =>
      obtain ⟨hin, hlt, hlast⟩ := hr
      have hp : ∀ a, (cmp a key == .lt) = true ↔ f a < f key := by
        intro a
        rw [hf, beq_iff_eq, compare_lt_iff_lt]
      symm
      unfold AtomicList.find
      cases r with
      | none =>
          rw [Option.map_none, List.find?_eq_none]
          intro a ha hpa
          obtain ⟨n, hn, rfl⟩ := h.mem_contents.mp (List.mem_reverse.mp ha)
          exact absurd (hlast n hn ((hp _).mp hpa)) (not_le.mpr (WithBot.bot_lt_coe _))
      | some n =>
          rw [Option.map_some]
          refine find?_reverse_eq_some h.contents_sorted (hmem n (inList_some.mp hin))
            ((hp _).mpr (WithBot.coe_lt_coe.mp hlt)) fun a ha hpa => ?_
          obtain ⟨m, hm, rfl⟩ := h.mem_contents.mp ha
          exact WithBot.coe_le_coe.mp (hlast m hm ((hp _).mp hpa))
  | last =>
      obtain ⟨hin, hlast⟩ := hr
      symm
      unfold AtomicList.find
      cases r with
      | none =>
          rw [Option.map_none, List.getLast?_eq_none_iff, List.eq_nil_iff_forall_not_mem]
          intro a ha
          obtain ⟨n, hn, rfl⟩ := h.mem_contents.mp ha
          exact absurd (hlast n hn) (not_le.mpr (WithBot.bot_lt_coe _))
      | some n =>
          have hall : s.contents.filter (fun _ => true) = s.contents :=
            List.filter_eq_self.mpr fun _ _ => rfl
          rw [Option.map_some, ← hall, List.getLast?_filter]
          refine find?_reverse_eq_some h.contents_sorted (hmem n (inList_some.mp hin)) rfl
            fun a ha _ => ?_
          obtain ⟨m, hm, rfl⟩ := h.mem_contents.mp ha
          exact WithBot.coe_le_coe.mp (hlast m hm)

omit [DecidableEq κ] in
/-- The moment of an insertion is the step that links level 0 or finds an equal key. -/
theorem Inv.atomic_apply (h : s.Inv f S) (h' : s'.Inv f S') {i : ℕ} {d d' : InsertCall κ}
    (hd : s.calls[i]? = some d) (hactive : d.active = true) (hcalls : s'.calls = s.calls.set i d')
    (hx : d'.inserting.x = d.inserting.x) (hfinds : s'.finds = s.finds)
    (hputs : S' 0 = S 0 ∨ d.inserting.x ∉ S 0 ∧ S' 0 = insert d.inserting.x (S 0)) :
    s'.atomic = s.atomic ∨ s.atomic.step cmp (.apply i) = some s'.atomic := by
  obtain ⟨hi, hget⟩ := List.getElem?_eq_some_iff.mp hd
  have hd' : s'.calls[i]? = some d' := by rw [hcalls, List.getElem?_set_self hi]
  have htrue := (h.calls i d hd).1.result_eq_true
  have htrue' := (h'.calls i d' hd').1.result_eq_true
  rw [hx] at htrue'
  have hfalse : d.inserting.result ≠ some false := by
    intro hres
    rw [InsertCall.active_eq_false.mpr ⟨false, Inserting.result_eq_false hres⟩] at hactive
    cases hactive
  have hatomic : s'.atomic = ⟨s'.contents,
      s.atomic.inserts.set i (d.inserting.x.key, d'.inserting.result), s.atomic.searches⟩ := by
    unfold atomic
    rw [hcalls, hfinds, List.map_set, InsertCall.atomic, hx]
  have hget' : s.atomic.inserts[i]? = some (d.inserting.x.key, d.inserting.result) := by
    rw [atomic, List.getElem?_map, hd]
    rfl
  have hsame : s'.contents = s.contents → d'.inserting.result = d.inserting.result →
      s'.atomic = s.atomic := by
    intro hcontents hres
    obtain ⟨hlt, heq⟩ := List.getElem?_eq_some_iff.mp hget'
    rw [hatomic, hcontents, hres, ← heq, List.set_getElem_self hlt]
    rfl
  have hstep : d.inserting.result = none → s.atomic.step cmp (.apply i) =
      match OrderedCursor.insert cmp d.inserting.x.key s.contents with
      | none => some ⟨s.contents, s.atomic.inserts.set i (d.inserting.x.key, some false),
          s.atomic.searches⟩
      | some contents => some ⟨contents, s.atomic.inserts.set i (d.inserting.x.key, some true),
          s.atomic.searches⟩ := by
    intro hres
    rw [AtomicList.step, hget', hres]
    rfl
  have hunknown : d.inserting.x ∉ S 0 → d.inserting.result = none := by
    intro hmem
    cases hold : d.inserting.result with
    | none => rfl
    | some inserted =>
        cases inserted with
        | true => exact absurd (htrue.mp hold) hmem
        | false => exact absurd hold hfalse
  rcases hputs with hS | ⟨hmem, hS⟩
  · have hcontents := h.contents_eq h' hS
    rw [hS] at htrue'
    by_cases hmem : d.inserting.x ∈ S 0
    · exact Or.inl (hsame hcontents ((htrue'.mpr hmem).trans (htrue.mpr hmem).symm))
    · cases hres : d'.inserting.result with
      | none => exact Or.inl (hsame hcontents (hres.trans (hunknown hmem).symm))
      | some inserted =>
          cases inserted with
          | true => exact absurd (htrue'.mp hres) hmem
          | false =>
              have hinv := (h'.calls i d' hd').1.2
              rw [Inserting.result_eq_false hres] at hinv
              obtain ⟨n, hn, hpos⟩ := hinv.2.2
              rw [hS] at hn
              rw [Inserting.target, hx] at hpos
              right
              rw [hstep (hunknown hmem), h.insert_eq_none hf hn hpos, hatomic, hcontents, hres]
  · have hres : d'.inserting.result = some true := by
      rw [htrue', hS]
      exact Set.mem_insert _ _
    right
    rw [hstep (hunknown hmem), h.insert_contents hf h' hmem hS, hatomic, hres]

theorem Inv.atomic_answer (h : s.Inv f S) {i : ℕ} {d : Finding κ} (hd : s.finds[i]? = some d) :
    let s' := { s with finds := s.finds.set i (d.step cmp s.list) }
    s'.atomic = s.atomic ∨ s.atomic.step cmp (.answer i) = some s'.atomic := by
  intro s'
  have hget : s.atomic.searches[i]? = some (d.kind, d.result) := by
    rw [atomic, List.getElem?_map, hd]
    rfl
  have hkind : (d.step cmp s.list).kind = d.kind := Finding.step_kind cmp s.list d
  have hatomic : s'.atomic = ⟨s.contents, s.atomic.inserts,
      s.atomic.searches.set i (d.kind, (d.step cmp s.list).result)⟩ := by
    change AtomicList.mk _ _ (List.map _ _) = _
    rw [List.map_set, Finding.atomic, hkind]
    rfl
  have hsame : (d.step cmp s.list).result = d.result → s'.atomic = s.atomic := by
    intro hres
    obtain ⟨hlt, heq⟩ := List.getElem?_eq_some_iff.mp hget
    rw [hatomic, hres, ← heq, List.set_getElem_self hlt]
    rfl
  by_cases hret : ∃ r, d.stage = .returned r
  · obtain ⟨r, hr⟩ := hret
    refine Or.inl (hsame ?_)
    rw [Finding.step, hr]
  · have hopen : d.result = none := by
      unfold Finding.result
      cases hst : d.stage with
      | returned r => exact absurd ⟨r, hst⟩ hret
      | _ => rfl
    obtain ⟨-, hanswer⟩ := (h.finds d (List.mem_of_getElem? hd)).step hf h.levels
      fun r hr => hret ⟨r, hr⟩
    rw [hkind] at hanswer
    cases hst : (d.step cmp s.list).stage with
    | returned r =>
        right
        rw [AtomicList.step, hget, hopen, hatomic]
        have hres : (d.step cmp s.list).result = some (r.map SkipNode.key) := by
          rw [Finding.result, hst]
        rw [hres, h.find_contents hf (hanswer r hst)]
        rfl
    | _ =>
        refine Or.inl (hsame ?_)
        rw [hopen, Finding.result, hst]

/-- Every step is nothing or one event of the sorted list. -/
theorem Inv.atomic_step (h : s.Inv f S) {e : SkipListEvent κ} (hs : s.step cmp e = some s') :
    s'.atomic = s.atomic ∨ s.atomic.step cmp e.atomic = some s'.atomic := by
  cases e with
  | insert kind key height =>
      obtain ⟨⟨hheight, hcompat⟩, hs⟩ := Option.ite_none_right_eq_some.mp hs
      obtain rfl := Option.some.inj hs
      right
      have hbegin : Inv f S { s with calls := s.calls ++ [s.beginInsert kind key height] } :=
        h.beginInsert hheight hcompat
      have hcontents := h.contents_eq hbegin rfl
      rw [SkipListEvent.atomic, AtomicList.step]
      change some _ = some (AtomicList.mk _ (List.map _ (_ ++ [_])) _)
      rw [List.map_append, hcontents]
      rfl
  | insertStep call weak =>
      obtain ⟨d, hd, hs⟩ := Option.bind_eq_some_iff.mp hs
      obtain ⟨hactive, hs⟩ := Option.ite_none_right_eq_some.mp hs
      obtain rfl := Option.some.inj hs
      obtain ⟨hinv, -⟩ := h.calls call d hd
      obtain ⟨S', hstep⟩ := hinv.step hf h.levels weak
      exact h.atomic_apply hf (h.insertStep hd hactive hstep) hd hactive rfl
        (Inserting.sameCall_step cmp weak s.list d.inserting).1 rfl (hstep.puts hinv)
  | find kind =>
      obtain rfl := Option.some.inj hs
      right
      rw [SkipListEvent.atomic, AtomicList.step]
      change some _ = some (AtomicList.mk _ _ (List.map _ (_ ++ [_])))
      rw [List.map_append]
      rfl
  | findStep i =>
      obtain ⟨d, hd, hs⟩ := Option.bind_eq_some_iff.mp hs
      obtain rfl := Option.some.inj hs
      exact h.atomic_answer hf hd

theorem Inv.atomic_run (h : s.Inv f S) {es : List (SkipListEvent κ)}
    (hs : s.run cmp es = some s') :
    ∃ es', es'.Sublist (es.map SkipListEvent.atomic) ∧
      s.atomic.run cmp es' = some s'.atomic := by
  induction es generalizing s S with
  | nil =>
      obtain rfl := Option.some.inj hs
      exact ⟨[], List.nil_sublist _, rfl⟩
  | cons e es ih =>
      obtain ⟨s₁, he, hs⟩ := Option.bind_eq_some_iff.mp hs
      obtain ⟨S₁, h₁⟩ := h.step hf he
      obtain ⟨es', hsub, hes'⟩ := ih h₁ hs
      rcases h.atomic_step hf he with hsame | hevent
      · rw [hsame] at hes'
        exact ⟨es', hsub.cons _, hes'⟩
      · refine ⟨e.atomic :: es', hsub.cons_cons _, ?_⟩
        rw [AtomicList.run, hevent]
        exact hes'

end SkipListSystem

/-! ### Every run -/

namespace SkipListSystem

variable {κ : Type} [DecidableEq κ] {cmp : κ → κ → Ordering} {s : SkipListSystem κ}

/-- The comparison of the keys is one of positions in some order. -/
theorem exists_inv [Std.TransCmp cmp] {es : List (SkipListEvent κ)}
    (hs : create.run cmp es = some s) :
    ∃ (α : Type) (_ : LinearOrder α) (f : κ → α) (S : LevelSets κ),
      (∀ a b, cmp a b = compare (f a) (f b)) ∧ s.Inv f S := by
  obtain ⟨α, order, f, hf⟩ := OrderedCursor.exists_linearOrder cmp
  obtain ⟨S, hinv⟩ := inv_run hf inv_create hs
  exact ⟨α, order, f, S, hf, hinv⟩

/-- Every level is a sorted list that ends, a part of the one below it, and holds nodes that
reach to it. A call that has put its node in has it on all of its levels; one that has refused
a duplicate has it on none. -/
theorem levels_of_run [Std.TransCmp cmp] {es : List (SkipListEvent κ)}
    (hs : create.run cmp es = some s) :
    (∀ i, (s.level i).Pairwise (fun a b => cmp a.key b.key = .lt) ∧
      (s.level (i + 1)).Sublist (s.level i) ∧
      (∀ fuel, s.calls.length ≤ fuel → walk (s.list.next i) fuel none = s.level i) ∧
      ∀ n ∈ s.level i, i < n.height ∧ ∃ d ∈ s.calls, d.inserting.x = n) ∧
    ∀ d ∈ s.calls,
      (d.inserting.stage = .returned true →
        ∀ i, d.inserting.x ∈ s.level i ↔ i < d.inserting.x.height) ∧
      (d.inserting.stage = .returned false →
        (∀ i, d.inserting.x ∉ s.level i) ∧
          ∃ key ∈ s.contents, cmp key d.inserting.x.key = .eq) := by
  obtain ⟨α, order, f, S, hf, h⟩ := exists_inv hs
  constructor
  · intro i
    refine ⟨?_, h.level_succ_sublist i, fun fuel => h.walk_eq_level i, fun n hn => ⟨?_, ?_⟩⟩
    · refine (h.level_sorted i).imp fun {a b} hlt => ?_
      rw [hf, compare_lt_iff_lt]
      exact hlt
    · exact h.levels.lt_height i n (h.mem_level.mp hn)
    · exact List.mem_map.mp (h.subset_calls i (h.mem_level.mp hn))
  · intro d hd
    obtain ⟨i, hi⟩ := List.mem_iff_getElem?.mp hd
    obtain ⟨⟨-, hinv⟩, -⟩ := h.calls i d hi
    constructor
    · intro hstage j
      rw [hstage] at hinv
      exact h.mem_level.trans (hinv.2 j)
    · intro hstage
      rw [hstage] at hinv
      obtain ⟨-, hnot, n, hn, hpos⟩ := hinv
      refine ⟨fun j hmem => hnot j (h.mem_level.mp hmem), n.key, h.mem_contents.mpr ⟨n, hn, rfl⟩, ?_⟩
      rw [hf, compare_eq_iff_eq]
      exact hpos

/-- A run of the skip list is a run of one sorted list. Every event of the latter is at the
place of a step of the same call in the former, so it falls between the call's begin and its
return. -/
theorem linearizes [Std.TransCmp cmp] {es : List (SkipListEvent κ)}
    (hs : create.run cmp es = some s) :
    ∃ es', es'.Sublist (es.map SkipListEvent.atomic) ∧
      AtomicList.create.run cmp es' = some s.atomic := by
  obtain ⟨α, order, f, hf⟩ := OrderedCursor.exists_linearOrder cmp
  exact inv_create.atomic_run hf hs

/-- Two inserts between each other, the second of which comes in the way of the first, a
third one with the key of the first, and a search. -/
def overlappingInserts : List (SkipListEvent ℕ) :=
  [.insert .insertConcurrently 5 2, .insert .insertConcurrently 3 1] ++
  (List.replicate 5 [.insertStep 0 false, .insertStep 1 false]).flatten ++
  [.find (.lessThan 5)] ++ List.replicate 4 (.findStep 0) ++
  List.replicate 5 (.insertStep 0 false) ++
  .insert .insert 5 1 :: List.replicate 6 (.insertStep 2 false)

theorem overlappingInserts_isSome :
    ((create : SkipListSystem ℕ).run compare overlappingInserts).isSome = true := by decide

theorem levels_of_overlappingInserts :
    ∃ s : SkipListSystem ℕ, create.run compare overlappingInserts = some s ∧
      ∀ i, (s.level i).Pairwise (fun a b => compare a.key b.key = .lt) := by
  obtain ⟨s, hs⟩ := Option.isSome_iff_exists.mp overlappingInserts_isSome
  exact ⟨s, hs, fun i => ((levels_of_run hs).1 i).1⟩

theorem linearizes_overlappingInserts :
    ∃ (s : SkipListSystem ℕ) (es : List (AtomicEvent ℕ)),
      create.run compare overlappingInserts = some s ∧
      es.Sublist (overlappingInserts.map SkipListEvent.atomic) ∧
      AtomicList.create.run compare es = some s.atomic := by
  obtain ⟨s, hs⟩ := Option.isSome_iff_exists.mp overlappingInserts_isSome
  obtain ⟨es, hsub, hes⟩ := linearizes hs
  exact ⟨s, es, hs, hsub, hes⟩

end SkipListSystem

end Tweezer
