import Tweezer.InternalKey

/-!
# The sequence bounds of a memtable under concurrent inserts

The end of `MemTable::Add` with `allow_concurrent`: two loops of `compare_exchange_weak`, for
`first_seqno_` and for `earliest_seqno_`. The second loop too exchanges `first_seqno_`. Any number
of calls run at once, each atomic load and each exchange being a step of its own; an exchange may
fail without a reason.
-/

namespace Tweezer

/-- `first_seqno_` and `earliest_seqno_`. -/
structure SeqnoBounds where
  firstSeqno : ℕ
  earliestSeqno : ℕ
  deriving DecidableEq, Repr

/-- Where a call is, with the local variable of the loop. -/
inductive AddStage where
  | loadFirst
  | updateFirst (curSeqNum : ℕ)
  | loadEarliest
  | updateEarliest (curEarliestSeqno : ℕ)
  | done
  deriving DecidableEq, Repr

/-- One step of a call with sequence number `s`. If `spurious`, an exchange fails. -/
def AddStage.step (s : ℕ) (spurious : Bool) (b : SeqnoBounds) :
    AddStage → AddStage × SeqnoBounds
  | .loadFirst => (.updateFirst b.firstSeqno, b)
  | .updateFirst cur =>
      if cur = 0 ∨ s < cur then
        if b.firstSeqno = cur ∧ spurious = false then (.loadEarliest, { b with firstSeqno := s })
        else (.updateFirst b.firstSeqno, b)
      else (.loadEarliest, b)
  | .loadEarliest => (.updateEarliest b.earliestSeqno, b)
  | .updateEarliest cur =>
      if cur = kMaxSequenceNumber ∨ s < cur then
        -- the exchange is on `first_seqno_` here too
        if b.firstSeqno = cur ∧ spurious = false then (.done, { b with firstSeqno := s })
        else (.updateEarliest b.firstSeqno, b)
      else (.done, b)
  | .done => (.done, b)

/-- The calls that run at once. -/
structure ConcurrentAdds where
  bounds : SeqnoBounds
  stages : ℕ → AddStage

namespace ConcurrentAdds

/-- A choice of the scheduler: the call that takes a step, and whether its exchange fails. -/
abbrev Choice := ℕ × Bool

/-- The calls insert these sequence numbers. -/
def step (seqnos : List ℕ) (c : ConcurrentAdds) (choice : Choice) : ConcurrentAdds :=
  match seqnos[choice.1]? with
  | none => c
  | some s =>
      let r := (c.stages choice.1).step s choice.2 c.bounds
      ⟨r.2, Function.update c.stages choice.1 r.1⟩

def start (b : SeqnoBounds) : ConcurrentAdds := ⟨b, fun _ => .loadFirst⟩

def run (seqnos : List ℕ) (c : ConcurrentAdds) (schedule : List Choice) : ConcurrentAdds :=
  schedule.foldl (step seqnos) c

def Finished (seqnos : List ℕ) (c : ConcurrentAdds) : Prop :=
  ∀ i < seqnos.length, c.stages i = .done

instance (seqnos : List ℕ) (c : ConcurrentAdds) : Decidable (Finished seqnos c) :=
  inferInstanceAs (Decidable (∀ i < _, _))

end ConcurrentAdds

/-- The sequence numbers inserted, with the one that `first_seqno_` stood for before. -/
def SeqnoBounds.inserted (b : SeqnoBounds) (seqnos : List ℕ) : List ℕ :=
  if b.firstSeqno = 0 then seqnos else b.firstSeqno :: seqnos

theorem SeqnoBounds.mem_inserted (b : SeqnoBounds) {seqnos : List ℕ} {s : ℕ} (hs : s ∈ seqnos) :
    s ∈ b.inserted seqnos := by
  unfold inserted
  split_ifs
  · exact hs
  · exact List.mem_cons_of_mem _ hs

/-- What the two numbers have to say once the calls have finished. -/
structure SeqnoBounds.Bound (b b' : SeqnoBounds) (seqnos : List ℕ) : Prop where
  first_mem : b'.firstSeqno ∈ b.inserted seqnos
  first_le : ∀ s ∈ b.inserted seqnos, b'.firstSeqno ≤ s
  earliest_le : b'.earliestSeqno ≤ b'.firstSeqno
  earliest_eq : b.earliestSeqno = kMaxSequenceNumber → b'.earliestSeqno = b'.firstSeqno

namespace ConcurrentAdds

variable {seqnos : List ℕ} {b : SeqnoBounds} {c : ConcurrentAdds} {s v i : ℕ}

/-- `first_seqno_` is set, to at most `v`. Zero is a value of its own only if it is inserted. -/
def Below (seqnos : List ℕ) (b : SeqnoBounds) (v : ℕ) : Prop :=
  b.firstSeqno ≤ v ∧ (b.firstSeqno = 0 → 0 ∈ seqnos)

/-- What a call knows about `first_seqno_`. -/
def Knows (seqnos : List ℕ) (b : SeqnoBounds) (s : ℕ) : AddStage → Prop
  | .loadFirst => True
  | .updateFirst cur => cur ≠ 0 → Below seqnos b cur
  | _ => Below seqnos b s

/-- The state of a run from `b`. -/
structure Inv (b : SeqnoBounds) (seqnos : List ℕ) (c : ConcurrentAdds) : Prop where
  earliest : c.bounds.earliestSeqno = b.earliestSeqno
  first_mem : c.bounds.firstSeqno ∈ b.firstSeqno :: seqnos
  below : b.firstSeqno ≠ 0 → Below seqnos c.bounds b.firstSeqno
  knows : ∀ i, ∀ s ∈ seqnos[i]?, Knows seqnos c.bounds s (c.stages i)

theorem inv_start (b : SeqnoBounds) (seqnos : List ℕ) : Inv b seqnos (start b) :=
  ⟨rfl, List.mem_cons_self, fun hb => ⟨le_rfl, fun hz => absurd hz hb⟩, fun _ _ _ => trivial⟩

/-- An exchange by a call with sequence number `s` that found what it expected. -/
theorem Below.exchange (hzero : 0 ∈ seqnos → ∀ s ∈ seqnos, s = 0) (hs : s ∈ seqnos)
    (hcur : b.firstSeqno = 0 ∨ s < b.firstSeqno) (h : Below seqnos b v) :
    Below seqnos { b with firstSeqno := s } v := by
  obtain ⟨hle, hset⟩ := h
  refine ⟨?_, fun hz => hz ▸ hs⟩
  rcases hcur with hunset | hlt
  · rw [hzero (hset hunset) s hs]
    exact Nat.zero_le v
  · exact (Nat.le_of_lt hlt).trans hle

theorem Knows.mono {b' : SeqnoBounds} (h : ∀ v, Below seqnos b v → Below seqnos b' v)
    {stage : AddStage} (hknows : Knows seqnos b s stage) : Knows seqnos b' s stage := by
  cases stage with
  | loadFirst => trivial
  | updateFirst cur => exact fun hcur => h cur (hknows hcur)
  | loadEarliest | updateEarliest _ | done => exact h s hknows

/-- What one step of a call does to the bounds, and what the call knows after it. -/
structure StepKeeps (seqnos : List ℕ) (s : ℕ) (b : SeqnoBounds) (r : AddStage × SeqnoBounds) :
    Prop where
  earliest : r.2.earliestSeqno = b.earliestSeqno
  first : r.2.firstSeqno = b.firstSeqno ∨ r.2.firstSeqno = s
  below : ∀ v, Below seqnos b v → Below seqnos r.2 v
  knows : Knows seqnos r.2 s r.1

theorem StepKeeps.same {stage : AddStage} (h : Knows seqnos b s stage) :
    StepKeeps seqnos s b (stage, b) :=
  ⟨rfl, Or.inl rfl, fun _ hv => hv, h⟩

/-- A step, by cases on where the call is. -/
theorem stepKeeps (hzero : 0 ∈ seqnos → ∀ s ∈ seqnos, s = 0) (hs : s ∈ seqnos)
    (hmax : s ≤ kMaxSequenceNumber) (spurious : Bool) {stage : AddStage}
    (h : Knows seqnos b s stage) : StepKeeps seqnos s b (stage.step s spurious b) := by
  cases stage with
  | loadFirst => exact .same fun hcur => ⟨le_rfl, fun hz => absurd hz hcur⟩
  | updateFirst cur =>
      rw [AddStage.step]
      by_cases hcur : cur = 0 ∨ s < cur
      · rw [if_pos hcur]
        by_cases hfound : b.firstSeqno = cur ∧ spurious = false
        · rw [if_pos hfound]
          obtain ⟨rfl, -⟩ := hfound
          exact ⟨rfl, Or.inr rfl, fun v hv => hv.exchange hzero hs hcur,
            ⟨le_rfl, fun hz => hz ▸ hs⟩⟩
        · rw [if_neg hfound]
          exact .same fun hset => ⟨le_rfl, fun hz => absurd hz hset⟩
      · rw [if_neg hcur]
        obtain ⟨hset, hle⟩ := not_or.mp hcur
        have hbelow := h hset
        exact .same ⟨hbelow.1.trans (Nat.le_of_not_lt hle), hbelow.2⟩
  | loadEarliest => exact .same h
  | updateEarliest cur =>
      rw [AddStage.step]
      by_cases hcur : cur = kMaxSequenceNumber ∨ s < cur
      · rw [if_pos hcur]
        by_cases hfound : b.firstSeqno = cur ∧ spurious = false
        · -- the call is at or above `first_seqno_`, so both are the largest number there is
          rw [if_pos hfound]
          obtain ⟨rfl, -⟩ := hfound
          have hle := h.1
          have heq : b.firstSeqno = s := by omega
          have hsame : { b with firstSeqno := s } = b := by rw [← heq]
          rw [hsame]
          exact .same h
        · rw [if_neg hfound]
          exact .same h
      · rw [if_neg hcur]
        exact .same h
  | done => exact .same h

theorem Inv.step (h : Inv b seqnos c) (hzero : 0 ∈ seqnos → ∀ s ∈ seqnos, s = 0)
    (hmax : ∀ s ∈ seqnos, s ≤ kMaxSequenceNumber) (choice : Choice) :
    Inv b seqnos (c.step seqnos choice) := by
  unfold ConcurrentAdds.step
  cases hi : seqnos[choice.1]? with
  | none => exact h
  | some s =>
      have hs := List.mem_of_getElem? hi
      have hkeeps := stepKeeps hzero hs (hmax s hs) choice.2 (h.knows choice.1 s hi)
      refine ⟨hkeeps.earliest.trans h.earliest, ?_, fun hb => hkeeps.below _ (h.below hb), ?_⟩
      · rcases hkeeps.first with hsame | hset
        · rw [hsame]
          exact h.first_mem
        · rw [hset]
          exact List.mem_cons_of_mem _ hs
      · intro j s' hj
        by_cases hji : j = choice.1
        · subst hji
          obtain rfl := Option.some.inj (hi.symm.trans hj)
          dsimp only
          rw [Function.update_self]
          exact hkeeps.knows
        · dsimp only
          rw [Function.update_of_ne hji]
          exact (h.knows j s' hj).mono hkeeps.below

theorem Inv.run (h : Inv b seqnos c) (hzero : 0 ∈ seqnos → ∀ s ∈ seqnos, s = 0)
    (hmax : ∀ s ∈ seqnos, s ≤ kMaxSequenceNumber) (schedule : List Choice) :
    Inv b seqnos (c.run seqnos schedule) := by
  induction schedule generalizing c with
  | nil => exact h
  | cons choice schedule ih => exact ih (h.step hzero hmax choice)

theorem Inv.below_of_finished (h : Inv b seqnos c) (hdone : Finished seqnos c) :
    ∀ s ∈ seqnos, Below seqnos c.bounds s := by
  intro s hs
  obtain ⟨i, hi⟩ := List.mem_iff_getElem?.mp hs
  have hknows := h.knows i s hi
  rw [hdone i (List.getElem?_eq_some_iff.mp hi).1] at hknows
  exact hknows

/-- In every run `first_seqno_` ends as the smallest sequence number. -/
theorem Inv.first_least (h : Inv b seqnos c) (hne : seqnos ≠ []) (hdone : Finished seqnos c) :
    c.bounds.firstSeqno ∈ b.inserted seqnos ∧
      ∀ s ∈ b.inserted seqnos, c.bounds.firstSeqno ≤ s := by
  have hbelow := h.below_of_finished hdone
  have hmem := h.first_mem
  unfold SeqnoBounds.inserted
  split_ifs with hunset
  · refine ⟨?_, fun s hs => (hbelow s hs).1⟩
    rcases List.mem_cons.mp hmem with hfirst | hmem
    · obtain ⟨s, hs⟩ := List.exists_mem_of_ne_nil seqnos hne
      have hzero := (hbelow s hs).2 (hfirst.trans hunset)
      rwa [hfirst, hunset]
    · exact hmem
  · refine ⟨hmem, ?_⟩
    intro s hs
    rcases List.mem_cons.mp hs with rfl | hs
    · exact (h.below hunset).1
    · exact (hbelow s hs).1

/-! ### Runs that finish -/

theorem earliestSeqno_step (c : ConcurrentAdds) (choice : Choice) :
    (c.step seqnos choice).bounds.earliestSeqno = c.bounds.earliestSeqno := by
  unfold ConcurrentAdds.step
  cases seqnos[choice.1]? with
  | none => rfl
  | some s =>
      dsimp only
      cases c.stages choice.1 <;> simp only [AddStage.step] <;> split_ifs <;> rfl

/-- No step writes `earliest_seqno_`. -/
theorem earliestSeqno_run (c : ConcurrentAdds) (schedule : List Choice) :
    (c.run seqnos schedule).bounds.earliestSeqno = c.bounds.earliestSeqno := by
  induction schedule generalizing c with
  | nil => rfl
  | cons choice schedule ih => exact (ih (c.step seqnos choice)).trans (earliestSeqno_step c choice)

/-- Steps of one call alone. -/
def alone (s : ℕ) (r : AddStage × SeqnoBounds) : AddStage × SeqnoBounds := r.1.step s false r.2

/-- A call runs from its start to its end with no other call in between. -/
def solo (i : ℕ) : List Choice := List.replicate 5 (i, false)

theorem run_replicate (hi : seqnos[i]? = some s) (n : ℕ) (c : ConcurrentAdds) :
    c.run seqnos (List.replicate n (i, false)) =
      ⟨((alone s)^[n] (c.stages i, c.bounds)).2,
        Function.update c.stages i ((alone s)^[n] (c.stages i, c.bounds)).1⟩ := by
  induction n generalizing c with
  | zero => simp [run]
  | succ n ih =>
      have hstep : c.step seqnos (i, false) =
          ⟨(alone s (c.stages i, c.bounds)).2,
            Function.update c.stages i (alone s (c.stages i, c.bounds)).1⟩ := by
        simp only [ConcurrentAdds.step, hi, alone]
      rw [List.replicate_succ, run, List.foldl_cons, ← run, hstep, ih]
      simp [Function.iterate_succ_apply]

/-- The last loop ends at its second turn, with `first_seqno_` as it was or as `s`. -/
theorem alone_updateEarliest (s cur : ℕ) (b : SeqnoBounds) :
    ((alone s)^[2] (.updateEarliest cur, b)).1 = .done ∧
      (((alone s)^[2] (.updateEarliest cur, b)).2 = b ∨
        ((alone s)^[2] (.updateEarliest cur, b)).2 = { b with firstSeqno := s }) := by
  rw [Function.iterate_succ_apply, Function.iterate_one]
  unfold alone
  rw [AddStage.step]
  split_ifs with hcur hfound
  · exact ⟨rfl, Or.inr rfl⟩
  · dsimp only
    rw [AddStage.step]
    split_ifs with hcur' hfound'
    · exact ⟨rfl, Or.inr rfl⟩
    · exact absurd ⟨rfl, rfl⟩ hfound'
    · exact ⟨rfl, Or.inl rfl⟩
  · exact ⟨rfl, Or.inl rfl⟩

theorem alone_loadFirst (s : ℕ) (b : SeqnoBounds) :
    ((alone s)^[5] (.loadFirst, b)).1 = .done ∧
      (s ≠ 0 → ((alone s)^[5] (.loadFirst, b)).2.firstSeqno ≠ 0) := by
  obtain ⟨b', hb', hset⟩ : ∃ b', alone s (.updateFirst b.firstSeqno, b) = (.loadEarliest, b') ∧
      (s ≠ 0 → b'.firstSeqno ≠ 0) := by
    unfold alone
    rw [AddStage.step]
    split_ifs with hcur hfound
    · exact ⟨_, rfl, fun hs => hs⟩
    · exact absurd ⟨rfl, rfl⟩ hfound
    · exact ⟨b, rfl, fun _ => (not_or.mp hcur).1⟩
  have hstart : (alone s)^[5] (.loadFirst, b) =
      (alone s)^[2] (.updateEarliest b'.earliestSeqno, b') := by
    rw [show (5 : ℕ) = 2 + 1 + 1 + 1 from rfl, Function.iterate_succ_apply,
      Function.iterate_succ_apply, Function.iterate_succ_apply]
    rw [show alone s (.loadFirst, b) = (.updateFirst b.firstSeqno, b) from rfl, hb']
    rfl
  obtain ⟨hdone, hbounds⟩ := alone_updateEarliest s b'.earliestSeqno b'
  rw [hstart]
  refine ⟨hdone, fun hs => ?_⟩
  rcases hbounds with hsame | hexchanged
  · rw [hsame]
    exact hset hs
  · rw [hexchanged]
    exact hs

theorem alone_done (s n : ℕ) (b : SeqnoBounds) : (alone s)^[n] (.done, b) = (.done, b) :=
  Function.iterate_fixed rfl n

/-- After `solo` the call has finished, and the other calls are where they were. -/
theorem solo_spec (hi : seqnos[i]? = some s)
    (hstage : c.stages i = .loadFirst ∨ c.stages i = .done) :
    (c.run seqnos (solo i)).stages i = .done ∧
      (∀ j ≠ i, (c.run seqnos (solo i)).stages j = c.stages j) ∧
      (c.stages i = .loadFirst → s ≠ 0 → (c.run seqnos (solo i)).bounds.firstSeqno ≠ 0) := by
  rw [solo, run_replicate hi]
  obtain ⟨hdone, hset⟩ := alone_loadFirst s c.bounds
  refine ⟨?_, fun j hj => Function.update_of_ne hj _ _, ?_⟩
  · dsimp only
    rw [Function.update_self]
    rcases hstage with hload | hended
    · rw [hload]
      exact hdone
    · rw [hended, alone_done]
  · intro hload
    dsimp only
    rw [hload]
    exact hset

/-- One call after the other. -/
theorem solos_spec (is : List ℕ) (his : ∀ i ∈ is, i < seqnos.length)
    (hstages : ∀ i, c.stages i = .loadFirst ∨ c.stages i = .done) :
    (∀ i ∈ is, (c.run seqnos (is.flatMap solo)).stages i = .done) ∧
      ∀ i ∉ is, (c.run seqnos (is.flatMap solo)).stages i = c.stages i := by
  induction is generalizing c with
  | nil => exact ⟨fun i hi => absurd hi List.not_mem_nil, fun _ _ => rfl⟩
  | cons j js ih =>
      have hj := List.getElem?_eq_getElem (his j List.mem_cons_self)
      obtain ⟨hdone, hothers, -⟩ := solo_spec hj (hstages j)
      have hrun : c.run seqnos ((j :: js).flatMap solo) =
          (c.run seqnos (solo j)).run seqnos (js.flatMap solo) := by
        simp only [run, List.flatMap_cons, List.foldl_append]
      have hstages' : ∀ i, (c.run seqnos (solo j)).stages i = .loadFirst ∨
          (c.run seqnos (solo j)).stages i = .done := by
        intro i
        by_cases hij : i = j
        · subst hij
          exact Or.inr hdone
        · rw [hothers i hij]
          exact hstages i
      obtain ⟨hin, hout⟩ := ih (fun i hi => his i (List.mem_cons_of_mem _ hi)) hstages'
      rw [hrun]
      constructor
      · intro i hi
        by_cases hmem : i ∈ js
        · exact hin i hmem
        · obtain rfl : i = j := (List.mem_cons.mp hi).resolve_right hmem
          rw [hout i hmem]
          exact hdone
      · intro i hi
        obtain ⟨hij, hmem⟩ := not_or.mp (fun h => hi (List.mem_cons.mpr h))
        rw [hout i hmem]
        exact hothers i hij

/-- The calls can finish with any one of them last, and if it inserts another number than zero,
`first_seqno_` is not zero then. -/
theorem exists_finished (b : SeqnoBounds) {j : ℕ} (hj : seqnos[j]? = some s) :
    ∃ schedule, Finished seqnos ((start b).run seqnos schedule) ∧
      (s ≠ 0 → ((start b).run seqnos schedule).bounds.firstSeqno ≠ 0) := by
  obtain ⟨others, hothers⟩ :
      ∃ others, others = (List.range seqnos.length).filter (fun i => i ≠ j) := ⟨_, rfl⟩
  have hmem : ∀ i, i ∈ others ↔ i < seqnos.length ∧ i ≠ j := by
    intro i
    rw [hothers]
    simp
  obtain ⟨c, hc⟩ : ∃ c, c = (start b).run seqnos (others.flatMap solo) := ⟨_, rfl⟩
  obtain ⟨hin, hout⟩ := solos_spec (c := start b) others (fun i hi => ((hmem i).mp hi).1)
    fun _ => Or.inl rfl
  rw [← hc] at hin hout
  have hlast : c.stages j = .loadFirst := hout j fun hmem' => ((hmem j).mp hmem').2 rfl
  obtain ⟨hdone, hkept, hset⟩ := solo_spec hj (Or.inl hlast)
  have hrun : (start b).run seqnos (others.flatMap solo ++ solo j) = c.run seqnos (solo j) := by
    rw [hc]
    exact List.foldl_append
  refine ⟨others.flatMap solo ++ solo j, ?_, ?_⟩
  · intro i hi
    rw [hrun]
    by_cases hij : i = j
    · subst hij
      exact hdone
    · rw [hkept i hij]
      exact hin i ((hmem i).mpr ⟨hi, hij⟩)
  · rw [hrun]
    exact hset hlast

end ConcurrentAdds

/-- In every run in which all the calls finish the bounds are right. -/
def SeqnoBounds.Kept (b : SeqnoBounds) (seqnos : List ℕ) : Prop :=
  ∀ schedule, ConcurrentAdds.Finished seqnos ((ConcurrentAdds.start b).run seqnos schedule) →
    b.Bound ((ConcurrentAdds.start b).run seqnos schedule).bounds seqnos

/-- For every multiset of sequence numbers. -/
theorem SeqnoBounds.kept_iff (b : SeqnoBounds) {seqnos : List ℕ} (hne : seqnos ≠ [])
    (hmax : ∀ s ∈ seqnos, s ≤ kMaxSequenceNumber) :
    b.Kept seqnos ↔ (∀ s ∈ b.inserted seqnos, b.earliestSeqno ≤ s) ∧
      (0 ∈ seqnos → ∀ s ∈ seqnos, s = 0) := by
  constructor
  · intro hkept
    have hbound : ∀ {s}, s ∈ seqnos → ∃ b', b.Bound b' seqnos ∧
        b'.earliestSeqno = b.earliestSeqno ∧ (s ≠ 0 → b'.firstSeqno ≠ 0) := by
      intro s hs
      obtain ⟨j, hj⟩ := List.mem_iff_getElem?.mp hs
      obtain ⟨schedule, hdone, hset⟩ := ConcurrentAdds.exists_finished b hj
      exact ⟨_, hkept schedule hdone, ConcurrentAdds.earliestSeqno_run _ schedule, hset⟩
    constructor
    · intro s hs
      obtain ⟨s₀, hs₀⟩ := List.exists_mem_of_ne_nil seqnos hne
      obtain ⟨b', hb', hearliest, -⟩ := hbound hs₀
      rw [← hearliest]
      exact hb'.earliest_le.trans (hb'.first_le s hs)
    · intro hzero s hs
      by_contra hset
      obtain ⟨b', hb', -, hfirst⟩ := hbound hs
      exact hfirst hset (Nat.le_zero.mp (hb'.first_le 0 (b.mem_inserted hzero)))
  · rintro ⟨hearliest, hzero⟩ schedule hdone
    have hinv := (ConcurrentAdds.inv_start b seqnos).run hzero hmax schedule
    obtain ⟨hmem, hle⟩ := hinv.first_least hne hdone
    have hfirst := hearliest _ hmem
    refine ⟨hmem, hle, by rw [hinv.earliest]; exact hfirst, ?_⟩
    intro hunset
    rw [hinv.earliest]
    apply Nat.le_antisymm hfirst
    rw [hunset]
    obtain ⟨s, hs⟩ := List.exists_mem_of_ne_nil seqnos hne
    exact (hle s (b.mem_inserted hs)).trans (hmax s hs)

theorem SeqnoBounds.kept_iff_twoAdds : SeqnoBounds.Kept ⟨0, 4⟩ [6, 5] :=
  (SeqnoBounds.kept_iff ⟨0, 4⟩ (List.cons_ne_nil _ _) (by decide)).mpr (by decide)

/-- One call on a memtable whose `earliest_seqno_` was not set leaves it so. -/
theorem SeqnoBounds.oneAdd_not_kept : ¬ SeqnoBounds.Kept ⟨0, kMaxSequenceNumber⟩ [5] := by
  intro hkept
  have hbound := hkept (ConcurrentAdds.solo 0) (by decide)
  exact absurd hbound.earliest_le (by decide)

end Tweezer
