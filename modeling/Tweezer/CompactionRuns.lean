import Tweezer.CompactionTurns

/-!
# A compaction keeps what snapshots see

What turns keep holds of the whole output: it is strictly increasing and every key reads the
same, at every listed snapshot and at the tip. A snapshot at 0 is the exception: the code takes
it for none.
-/

namespace Tweezer

namespace CompactionIterator

variable {C : CompactionIterator}

/-! ### From turns to the output -/

section Runs

variable {I : View → List CompactionEntry → Prop}

/-- The iterator is at the end, or has an output to be passed. -/
inductive Ready (I : View → List CompactionEntry → Prop) (out : List CompactionEntry)
    (length : ℕ) (s : State) : Prop
  | atEnd (output : s.output = none) (input_eq : s.input = []) (kept : I s.view out)
  | valid (y : CompactionEntry) (output : s.output = some y)
      (shorter : s.pass.input.length < length) (kept : I s.pass.view (out ++ [y]))

/-- What every turn keeps. -/
def KeptByTurns (C : CompactionIterator) (I : View → List CompactionEntry → Prop) : Prop :=
  ∀ s out e rest, s.output = none → s.atNext = false → s.input = e :: rest → I s.view out →
    I (C.visit s e rest).viewAfter (out ++ ((C.visit s e rest).output.map C.prepare).toList)

theorem pass_view (s : State) :
    s.pass.view = { s.view with input := if s.atNext then s.input else s.input.tail } := by
  unfold State.pass
  split
  · rfl
  · rfl

/-- Passing an entry changes the same in states with the same view. -/
theorem pass_congr {s t : State} (hview : s.view = t.view) (hat : s.atNext = t.atNext) :
    s.pass.view = t.pass.view := by
  have hinput : s.input = t.input := congrArg View.input hview
  rw [pass_view, pass_view, hview, hat, hinput]

theorem Ready.congr {out : List CompactionEntry} {length : ℕ} {s t : State}
    (h : Ready I out length s) (houtput : t.output = s.output) (hview : t.view = s.view)
    (hat : t.atNext = s.atNext) : Ready I out length t := by
  cases h with
  | atEnd output input_eq kept =>
      have hinput : t.input = s.input := congrArg View.input hview
      exact .atEnd (houtput.trans output) (hinput.trans input_eq) (hview ▸ kept)
  | valid y output shorter kept =>
      have hpass := pass_congr hview hat
      have hinput : t.pass.input = s.pass.input := congrArg View.input hpass
      exact .valid y (houtput.trans output) (hinput ▸ shorter) (hpass ▸ kept)

theorem nextLoop_of_output {x : CompactionEntry} (fuel : ℕ) {s : State} (h : s.output = some x) :
    C.nextLoop fuel s = s := by
  cases fuel with
  | zero => rfl
  | succ fuel => rw [nextLoop, h]

theorem nextLoop_of_nil (fuel : ℕ) {s : State} (h : s.input = []) : C.nextLoop fuel s = s := by
  cases fuel with
  | zero => rfl
  | succ fuel =>
      rw [nextLoop, h]
      cases s.output <;> rfl

/-- The loop goes to an output or to the end of the input. -/
theorem nextLoop_ready (hI : KeptByTurns C I) (fuel : ℕ) {s : State}
    {out : List CompactionEntry} (h : I s.view out) (houtput : s.output = none)
    (hatNext : s.atNext = false) (hfuel : s.input.length ≤ fuel) {length : ℕ}
    (hlength : s.input.length ≤ length) :
    Ready I out length (C.prepareOutput (C.nextLoop fuel s)) := by
  induction fuel generalizing s with
  | zero =>
      apply Ready.atEnd
      · rw [prepareOutput, nextLoop, houtput]
        rfl
      · exact List.length_eq_zero_iff.mp (Nat.le_zero.mp hfuel)
      · exact h
  | succ fuel ih =>
      cases hinput : s.input with
      | nil =>
          rw [nextLoop_of_nil _ hinput]
          apply Ready.atEnd
          · rw [prepareOutput, houtput]
            rfl
          · exact hinput
          · exact h
      | cons e rest =>
          have hstep : C.nextLoop (fuel + 1) s = C.nextLoop fuel (C.visit s e rest) := by
            rw [nextLoop, houtput, hinput]
          obtain ⟨t, ht⟩ : ∃ t, t = C.visit s e rest := ⟨_, rfl⟩
          have hturned := visit_turned (C := C) houtput hatNext hinput
          have hkept := hI s out e rest houtput hatNext hinput h
          obtain ⟨consumed, hturn⟩ := hturned.turn
          have hshorter := hturn.shorter
          have hat := hturned.atNext
          rw [hinput, List.length_cons] at hfuel hlength
          rw [List.length_cons] at hshorter
          rw [← ht] at hkept hshorter hat
          rw [hstep, ← ht]
          unfold State.viewAfter at hkept hshorter
          cases hout : t.output with
          | none =>
              rw [hout] at hkept hshorter
              rw [Option.map_none, Option.toList_none, List.append_nil] at hkept
              have hlen : t.input.length < rest.length + 1 := hshorter
              exact ih hkept hout (hat hout) (by omega) (by omega)
          | some x =>
              rw [hout] at hkept hshorter
              rw [nextLoop_of_output fuel hout]
              have hpass : (C.prepareOutput t).pass.view = t.pass.view := pass_congr rfl rfl
              apply Ready.valid (C.prepare x)
              · rw [prepareOutput, hout]
                rfl
              · exact (congrArg List.length (congrArg View.input hpass)).trans_lt
                  (hshorter.trans_le hlength)
              · exact hpass ▸ hkept

theorem nextFromInput_ready (hI : KeptByTurns C I) {s : State} {out : List CompactionEntry}
    (h : I s.view out) :
    Ready I out s.input.length (C.prepareOutput (C.nextFromInput s)) :=
  nextLoop_ready hI s.input.length (s := { s with atNext := false, output := none })
    h rfl rfl le_rfl le_rfl

/-- `Next` goes on from an output. -/
theorem next_ready (hI : KeptByTurns C I) {s : State} {out : List CompactionEntry}
    (h : I s.pass.view out) : Ready I out s.pass.input.length (C.next s) := by
  have hready := nextFromInput_ready hI h
  have hnext : C.next s = C.prepareOutput (if (C.nextFromInput s.pass).output.isSome
      then { C.nextFromInput s.pass with hasOutputtedKey := true }
      else C.nextFromInput s.pass) := rfl
  rw [hnext]
  obtain ⟨t, ht⟩ : ∃ t, t = C.nextFromInput s.pass := ⟨_, rfl⟩
  rw [← ht] at hready ⊢
  by_cases hsome : t.output.isSome = true
  · rw [if_pos hsome]
    exact hready.congr rfl rfl rfl
  · rw [if_neg hsome]
    exact hready

/-- All outputs from a state on. -/
theorem outputsFrom_kept (hI : KeptByTurns C I) (fuel : ℕ) {s : State}
    {out : List CompactionEntry} {length : ℕ} (h : Ready I out length s)
    (hfuel : length ≤ fuel) : ∃ v, v.input = [] ∧ I v (out ++ C.outputsFrom fuel s) := by
  induction fuel generalizing s out length with
  | zero =>
      cases h with
      | atEnd output input_eq kept =>
          rw [outputsFrom, List.append_nil]
          exact ⟨s.view, input_eq, kept⟩
      | valid y output shorter kept => omega
  | succ fuel ih =>
      cases h with
      | atEnd output input_eq kept =>
          rw [outputsFrom, output, List.append_nil]
          exact ⟨s.view, input_eq, kept⟩
      | valid y output shorter kept =>
          have hrest := ih (next_ready hI kept) (by omega)
          rw [List.append_assoc, List.singleton_append] at hrest
          rw [outputsFrom, output]
          exact hrest

/-- What holds at first and is kept by every turn holds of the whole output. -/
theorem outputs_kept (hI : KeptByTurns C I) {input : List CompactionEntry}
    (hinit : I (State.init input).view []) : ∃ v, v.input = [] ∧ I v (C.outputs input) := by
  have hready := nextFromInput_ready hI hinit
  exact outputsFrom_kept hI input.length hready le_rfl

end Runs

/-! ### Reads -/

variable {input older : List CompactionEntry}

theorem progress_init : Progress C input [] (State.init input).view := by
  constructor
  · rfl
  · exact fun key hkey => nomatch hkey
  · exact fun p e hp => nomatch hp

theorem upheld_init (hwf : C.WellFormed input older) :
    Upheld C input older [] (State.init input).view [] := by
  apply Upheld.opened progress_init
  · constructor
    · exact fun key e hkey => nomatch hkey
    · exact fun hclear => nomatch hclear
  · exact NewestVisible.SameReads.refl _
  · exact hwf.increasing

/-- **What snapshots see is kept.** The output is strictly increasing, and every user key reads
the same over it as over the input, at every listed snapshot and at the tip, if no value at
sequence number 0 is mistaken for one that no snapshot sees. -/
theorem keepsReads_of_zeroKept (hwf : C.WellFormed input older) (hzero : C.ZeroKept input) :
    C.KeepsReads input older := by
  have hturns : KeptByTurns C fun v out => ∃ done, Upheld C input older done v out := by
    intro s out e rest houtput hatNext hinput h
    obtain ⟨done, h⟩ := h
    exact visit_kept hwf hzero h houtput hatNext hinput
  obtain ⟨v, hnil, done, hupheld⟩ := outputs_kept hturns ⟨[], upheld_init hwf⟩
  cases hupheld with
  | opened progress covered reads sorted =>
      rw [hnil] at reads sorted
      rw [List.append_nil] at sorted
      exact ⟨sorted, reads⟩
  | closed key progress current snapshot clear not_exists reads sorted =>
      have hother : C.otherKeys key [] = [] := rfl
      rw [hnil, hother] at reads sorted
      rw [List.append_nil] at sorted
      exact ⟨sorted, reads⟩

end CompactionIterator

end Tweezer
