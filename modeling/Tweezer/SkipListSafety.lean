import Mathlib.Data.Set.Finite.List
import Tweezer.SkipListRuns

/-!
# What holds of a skip list in every state

The invariant of all calls and searches together, its preservation by every step, and what it
says of the lists that the links make.
-/

namespace Tweezer

open OrderedLinks InlineSkipList

variable {κ α : Type} [LinearOrder α] {f : κ → α} {S S' : LevelSets κ}

namespace InsertCall

theorem active_eq_false {d : InsertCall κ} :
    d.active = false ↔ ∃ b, d.inserting.stage = .returned b := by
  unfold active
  cases d.inserting.stage with
  | returned b => exact ⟨fun _ => ⟨b, rfl⟩, fun _ => rfl⟩
  | _ => simp

end InsertCall

namespace SkipListSystem

structure Inv (f : κ → α) (S : LevelSets κ) (s : SkipListSystem κ) : Prop where
  levels : s.list.Levels f S
  calls : ∀ (i : ℕ) (d : InsertCall κ), s.calls[i]? = some d →
    d.inserting.Inv f s.list S ∧ d.inserting.x.id = i
  /-- The nodes of the levels are those of the calls. -/
  origin : ∀ (j : ℕ), ∀ n ∈ S j, ∃ d, s.calls[n.id]? = some d ∧ d.inserting.x = n
  splices : ∀ slot, (s.splices slot).Usable f s.list S
  alone : ∀ (i j : ℕ) (d e : InsertCall κ), s.calls[i]? = some d → s.calls[j]? = some e →
    i ≠ j → d.active = true → e.active = true → d.inserting.useCas = true
  finds : ∀ d ∈ s.finds, d.Inv f S

theorem inv_create : (create : SkipListSystem κ).Inv f fun _ => ∅ := by
  refine ⟨⟨fun i => linked_empty rfl, fun i => Set.empty_subset _, ?_, le_rfl⟩, ?_, ?_,
    fun slot => Splice.usable_unused, ?_, ?_⟩
  · intro i n hn
    exact absurd hn (Set.notMem_empty n)
  · rintro i d ⟨⟩
  · intro j n hn
    exact absurd hn (Set.notMem_empty n)
  · rintro i j d e ⟨⟩
  · intro d hd
    exact absurd hd List.not_mem_nil

variable {s s' : SkipListSystem κ}

/-- The node of a new call is in no level yet. -/
theorem Inv.fresh (h : s.Inv f S) (j : ℕ) (n : SkipNode κ) (hn : n.id = s.calls.length) :
    n ∉ S j := by
  intro hmem
  obtain ⟨d, hd, -⟩ := h.origin j n hmem
  rw [hn] at hd
  exact absurd (List.getElem?_eq_some_iff.mp hd).1 (lt_irrefl _)

theorem Inv.beginInsert (h : s.Inv f S) {kind : InsertKind} {key : κ} {height : ℕ}
    (hheight : 1 ≤ height) (hcompat : ∀ d ∈ s.calls, Compatible kind d) :
    Inv f S { s with calls := s.calls ++ [s.beginInsert kind key height] } := by
  -- an earlier call, or the new one
  have hcases : ∀ i d, (s.calls ++ [s.beginInsert kind key height])[i]? = some d →
      s.calls[i]? = some d ∨ i = s.calls.length ∧ d = s.beginInsert kind key height := by
    intro i d hd
    rcases lt_or_ge i s.calls.length with hlt | hge
    · rw [List.getElem?_append_left hlt] at hd
      exact Or.inl hd
    · rw [List.getElem?_append_right hge, List.getElem?_singleton] at hd
      split_ifs at hd with hzero
      exact Or.inr ⟨by omega, (Option.some.inj hd).symm⟩
  have hactive : ∀ (i : ℕ) (d : InsertCall κ), s.calls[i]? = some d → d.active = true →
      d.inserting.useCas = true ∧ kind.useCas = true := by
    intro i d hd hact
    obtain ⟨hcas, hkind, -⟩ := hcompat d (List.mem_of_getElem? hd) hact
    exact ⟨hcas, hkind⟩
  constructor
  · exact h.levels
  · intro i d hd
    rcases hcases i d hd with hd | ⟨rfl, rfl⟩
    · exact h.calls i d hd
    · refine ⟨⟨hheight, ?_, fun j => h.fresh j _ rfl, rfl⟩, rfl⟩
      unfold SkipListSystem.beginInsert
      dsimp only
      cases kind.slot with
      | none => exact Splice.usable_unused
      | some slot => exact h.splices slot
  · intro j n hn
    obtain ⟨d, hd, hx⟩ := h.origin j n hn
    refine ⟨d, ?_, hx⟩
    rw [List.getElem?_append_left (List.getElem?_eq_some_iff.mp hd).1]
    exact hd
  · exact h.splices
  · intro i j d e hd he hij hdact heact
    rcases hcases i d hd with hd | ⟨rfl, rfl⟩
    · exact (hactive i d hd hdact).1
    · rcases hcases j e he with he | ⟨rfl, rfl⟩
      · exact (hactive j e he heact).2
      · exact absurd rfl hij
  · exact h.finds

variable [DecidableEq κ] {cmp : κ → κ → Ordering} (hf : ∀ a b, cmp a b = compare (f a) (f b))

/-- What a step of a call keeps of all that is known of the other calls. -/
theorem Inv.insertStep (h : s.Inv f S) {i : ℕ} {d : InsertCall κ} (hd : s.calls[i]? = some d)
    (hactive : d.active = true) {weak : Bool}
    (hstep : Inserting.Stepped f s.list (d.inserting.step cmp weak s.list).1 S S' d.inserting
      (d.inserting.step cmp weak s.list).2) :
    Inv f S' { s with
      list := (d.inserting.step cmp weak s.list).1
      calls := s.calls.set i { d with inserting := (d.inserting.step cmp weak s.list).2 }
      splices := s.keepSplice { d with inserting := (d.inserting.step cmp weak s.list).2 } } := by
  obtain ⟨-, hid⟩ := h.calls i d hd
  obtain ⟨hx, hcas⟩ := Inserting.sameCall_step cmp weak s.list d.inserting
  obtain ⟨hi, -⟩ := List.getElem?_eq_some_iff.mp hd
  have hsub : ∀ j, S j ⊆ S' j := by
    intro j
    rcases hstep.sets with heq | ⟨k, -, heq⟩
    · rw [heq]
    · rw [heq]
      by_cases hj : j = k
      · subst hj
        rw [Function.update_self]
        exact Set.subset_insert _ _
      · rw [Function.update_of_ne hj]
  have hnew : ∀ j, ∀ n ∈ S' j, n ∈ S j ∨ n = d.inserting.x := by
    intro j n hn
    rcases hstep.sets with heq | ⟨k, -, heq⟩
    · rw [heq] at hn
      exact Or.inl hn
    · rw [heq] at hn
      by_cases hj : j = k
      · subst hj
        rw [Function.update_self] at hn
        exact hn.symm
      · rw [Function.update_of_ne hj] at hn
        exact Or.inl hn
  have hcases : ∀ j e, (s.calls.set i
      { d with inserting := (d.inserting.step cmp weak s.list).2 })[j]? = some e →
      j = i ∧ e = { d with inserting := (d.inserting.step cmp weak s.list).2 } ∨
        j ≠ i ∧ s.calls[j]? = some e := by
    intro j e he
    by_cases hj : j = i
    · subst hj
      rw [List.getElem?_set_self hi] at he
      exact Or.inl ⟨rfl, (Option.some.inj he).symm⟩
    · rw [List.getElem?_set_ne (Ne.symm hj)] at he
      exact Or.inr ⟨hj, he⟩
  refine ⟨hstep.levels, ?_, ?_, ?_, ?_, ?_⟩
  · intro j e he
    rcases hcases j e he with ⟨rfl, rfl⟩ | ⟨hj, he⟩
    · exact ⟨hstep.inv, by rw [hx]; exact hid⟩
    · obtain ⟨heinv, heid⟩ := h.calls j e he
      refine ⟨heinv.grow hsub ?_ hstep.maxHeight ?_, heid⟩
      · intro k
        refine ⟨fun hk => ?_, fun hk => hsub k hk⟩
        rcases hnew k _ hk with hk | heq
        · exact hk
        · rw [heq, hid] at heid
          exact absurd heid.symm hj
      · cases heact : e.active with
        | true => exact Or.inl (h.alone j i e d he hd hj heact hactive)
        | false => exact Or.inr (InsertCall.active_eq_false.mp heact)
  · intro j n hn
    rcases hnew j n hn with hn | rfl
    · obtain ⟨e, he, hex⟩ := h.origin j n hn
      by_cases hni : n.id = i
      · rw [hni] at he ⊢
        obtain rfl := Option.some.inj (hd.symm.trans he)
        exact ⟨_, List.getElem?_set_self hi, hx.trans hex⟩
      · exact ⟨e, by rw [List.getElem?_set_ne (Ne.symm hni)]; exact he, hex⟩
    · rw [hid]
      exact ⟨_, List.getElem?_set_self hi, hx⟩
  · intro slot
    have hold := (h.splices slot).mono hsub hstep.maxHeight
    unfold keepSplice
    split_ifs with hstill
    · exact hold
    · obtain ⟨b, hb⟩ := InsertCall.active_eq_false.mp (Bool.eq_false_iff.mpr hstill)
      cases hslot : d.slot with
      | none => exact hold
      | some own =>
          dsimp only
          by_cases hown : slot = own
          · subst hown
            rw [Function.update_self]
            have hret := hstep.inv.2
            rw [show (d.inserting.step cmp weak s.list).2.stage = .returned b from hb] at hret
            cases b with
            | true => exact hret.1
            | false => exact hret.1
          · rw [Function.update_of_ne hown]
            exact hold
  · intro j k e e' he he' hjk heact he'act
    rcases hcases j e he with ⟨rfl, rfl⟩ | ⟨hj, hold⟩
    · rcases hcases k e' he' with ⟨rfl, -⟩ | ⟨hk, hold'⟩
      · exact absurd rfl hjk
      · change (d.inserting.step cmp weak s.list).2.useCas = true
        rw [hcas]
        exact h.alone _ k d e' hd hold' hjk hactive he'act
    · rcases hcases k e' he' with ⟨rfl, -⟩ | ⟨hk, hold'⟩
      · exact h.alone j _ e d hold hd hj heact hactive
      · exact h.alone j k e e' hold hold' hjk heact he'act
  · exact fun e he => (h.finds e he).mono hsub

include hf

omit hf [DecidableEq κ] in
theorem Inv.find (h : s.Inv f S) (kind : FindKind κ) :
    Inv f S { s with finds := s.finds ++ [⟨kind, .start⟩] } := by
  refine { h with finds := fun d hd => ?_ }
  rcases List.mem_append.mp hd with hd | hd
  · exact h.finds d hd
  · obtain rfl := List.mem_singleton.mp hd
    rintro level x lastSeen ⟨⟩

theorem Inv.findStep (h : s.Inv f S) {i : ℕ} {d : Finding κ} (hd : s.finds[i]? = some d) :
    Inv f S { s with finds := s.finds.set i (d.step cmp s.list) } := by
  refine { h with finds := fun d' hd' => ?_ }
  have hdinv := h.finds d (List.mem_of_getElem? hd)
  rcases List.mem_or_eq_of_mem_set hd' with hd' | rfl
  · exact h.finds d' hd'
  · by_cases hret : ∃ r, d.stage = .returned r
    · obtain ⟨r, hr⟩ := hret
      intro level x lastSeen hst
      unfold Finding.step at hst
      rw [hr] at hst
      dsimp only at hst
      rw [hr] at hst
      cases hst
    · exact (hdinv.step hf h.levels fun r hr => hret ⟨r, hr⟩).1

/-- Every step keeps the invariant. -/
theorem Inv.step (h : s.Inv f S) {e : SkipListEvent κ} (hs : s.step cmp e = some s') :
    ∃ S', s'.Inv f S' := by
  cases e with
  | insert kind key height =>
      obtain ⟨⟨hheight, hcompat⟩, hs⟩ := Option.ite_none_right_eq_some.mp hs
      obtain rfl := Option.some.inj hs
      exact ⟨S, h.beginInsert hheight hcompat⟩
  | insertStep call weak =>
      obtain ⟨d, hd, hs⟩ := Option.bind_eq_some_iff.mp hs
      obtain ⟨hactive, hs⟩ := Option.ite_none_right_eq_some.mp hs
      obtain rfl := Option.some.inj hs
      obtain ⟨hcall, -⟩ := h.calls call d hd
      obtain ⟨S', hstep⟩ := hcall.step hf h.levels weak
      exact ⟨S', h.insertStep hd hactive hstep⟩
  | find kind =>
      obtain rfl := Option.some.inj hs
      exact ⟨S, h.find kind⟩
  | findStep i =>
      obtain ⟨d, hd, hs⟩ := Option.bind_eq_some_iff.mp hs
      obtain rfl := Option.some.inj hs
      exact ⟨S, h.findStep hf hd⟩

theorem inv_run {es : List (SkipListEvent κ)} (h : s.Inv f S) (hs : s.run cmp es = some s') :
    ∃ S', s'.Inv f S' := by
  induction es generalizing s S with
  | nil =>
      obtain rfl := Option.some.inj hs
      exact ⟨S, h⟩
  | cons e es ih =>
      obtain ⟨s₁, he, hs⟩ := Option.bind_eq_some_iff.mp hs
      obtain ⟨S₁, h₁⟩ := h.step hf he
      exact ih h₁ hs

end SkipListSystem

end Tweezer
