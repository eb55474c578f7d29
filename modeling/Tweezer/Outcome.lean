import Tweezer.Bytes

/-!
# How a modelled call can end

A call returns a value, or it stops the process: by `exit(-1)`, or by touching memory
outside the buffer it was handed, after which the source promises nothing. Loops carry a
bound on their number of turns; running past it is an ending of its own, so a result that
is not `diverged` owes nothing to the bound.
-/

namespace Tweezer

inductive Stop where
  | exit
  | outOfBuffer
  | diverged
  deriving DecidableEq, Repr

abbrev Outcome (α : Type) := Except Stop α

namespace Outcome

variable {α β : Type}

theorem bind_eq_ok {x : Outcome α} {f : α → Outcome β} {b : β} :
    x >>= f = .ok b ↔ ∃ a, x = .ok a ∧ f a = .ok b := by
  constructor
  · intro h
    cases x with
    | error e => cases h
    | ok a => exact ⟨a, rfl, h⟩
  · rintro ⟨a, rfl, h⟩
    exact h

@[simp] theorem ok_bind (a : α) (f : α → Outcome β) : (Except.ok a : Outcome α) >>= f = f a :=
  rfl

@[simp] theorem error_bind (e : Stop) (f : α → Outcome β) :
    (Except.error e : Outcome α) >>= f = .error e := rfl

/-- A loop run with a bound on its turns gives `a`: with any bound that it gets by with, and
with every bound that is large enough. -/
structure Settles (f : ℕ → Outcome α) (a : α) : Prop where
  stable : ∀ fuel b, f fuel = .ok b → b = a
  enough : ∃ n, ∀ fuel, n ≤ fuel → f fuel = .ok a

theorem settles_const {x : Outcome α} {a : α} (h : x = .ok a) : Settles (fun _ => x) a :=
  ⟨fun _ _ hb => (Except.ok.inj (h.symm.trans hb)).symm, 0, fun _ _ => h⟩

/-- One more turn, after which the loop goes on as `g`. -/
theorem settles_succ {f g : ℕ → Outcome α} {a : α} (hzero : f 0 = .error .diverged)
    (hsucc : ∀ fuel, f (fuel + 1) = g fuel) (h : Settles g a) : Settles f a := by
  constructor
  · intro fuel b hb
    cases fuel with
    | zero =>
        rw [hzero] at hb
        cases hb
    | succ fuel =>
        rw [hsucc] at hb
        exact h.stable fuel b hb
  · obtain ⟨n, hn⟩ := h.enough
    refine ⟨n + 1, ?_⟩
    intro fuel hfuel
    cases fuel with
    | zero => omega
    | succ fuel =>
        rw [hsucc]
        exact hn fuel (by omega)

/-- A loop that stops at its first turn. -/
theorem settles_stop {f : ℕ → Outcome α} {a : α} (hzero : f 0 = .error .diverged)
    (hsucc : ∀ fuel, f (fuel + 1) = .ok a) : Settles f a :=
  settles_succ hzero hsucc (settles_const rfl)

theorem settles_bind {f : ℕ → Outcome α} {g : ℕ → α → Outcome β} {a : α} {b : β}
    (hf : Settles f a) (hg : Settles (fun fuel => g fuel a) b) :
    Settles (fun fuel => f fuel >>= g fuel) b := by
  constructor
  · intro fuel c hc
    obtain ⟨a', ha', hg'⟩ := bind_eq_ok.mp hc
    obtain rfl := hf.stable fuel a' ha'
    exact hg.stable fuel c hg'
  · obtain ⟨n, hn⟩ := hf.enough
    obtain ⟨m, hm⟩ := hg.enough
    refine ⟨max n m, ?_⟩
    intro fuel hfuel
    exact bind_eq_ok.mpr ⟨a, hn fuel (by omega), hm fuel (by omega)⟩

/-- The call touches no memory outside of its buffers, and `P` holds of what it returns. -/
def InBounds (P : α → Prop) : Outcome α → Prop
  | .ok a => P a
  | .error e => e ≠ .outOfBuffer

theorem InBounds.bind {P : α → Prop} {Q : β → Prop} {x : Outcome α} {f : α → Outcome β}
    (hx : x.InBounds P) (hf : ∀ a, P a → (f a).InBounds Q) : (x >>= f).InBounds Q := by
  cases x with
  | ok a => exact hf a hx
  | error e => exact hx

end Outcome

/-- The `n` bytes at offset `off` of a buffer, which must hold all of them. -/
def Bytes.fetch (b : Bytes) (off n : ℕ) : Outcome Bytes :=
  if off + n ≤ b.length then .ok (b.slice off n) else .error .outOfBuffer

theorem Bytes.fetch_of_le {b : Bytes} {off n : ℕ} (h : off + n ≤ b.length) :
    b.fetch off n = .ok (b.slice off n) := if_pos h

theorem Bytes.fetch_of_lt {b : Bytes} {off n : ℕ} (h : b.length < off + n) :
    b.fetch off n = .error .outOfBuffer := if_neg (by omega)

theorem Bytes.fetch_eq_ok {b c : Bytes} {off n : ℕ} (h : b.fetch off n = .ok c) :
    off + n ≤ b.length ∧ b.slice off n = c := by
  unfold Bytes.fetch at h
  split_ifs at h with hle
  exact ⟨hle, Except.ok.inj h⟩

/-- A fetch whose size is part of the type of its result. -/
def Bytes.fetchOctets (b : Bytes) (off n : ℕ) : Outcome (Octets n) :=
  if h : off + n ≤ b.length then .ok ⟨b.slice off n, Bytes.length_slice h⟩
  else .error .outOfBuffer

theorem Bytes.fetchOctets_of_le {b : Bytes} {off n : ℕ} (h : off + n ≤ b.length) :
    b.fetchOctets off n = .ok ⟨b.slice off n, Bytes.length_slice h⟩ := dif_pos h

theorem Bytes.fetchOctets_of_lt {b : Bytes} {off n : ℕ} (h : b.length < off + n) :
    b.fetchOctets off n = .error .outOfBuffer := dif_neg (by omega)

theorem Bytes.fetchOctets_eq_ok {b : Bytes} {off n : ℕ} {c : Octets n}
    (h : b.fetchOctets off n = .ok c) : off + n ≤ b.length ∧ b.slice off n = c.val := by
  unfold Bytes.fetchOctets at h
  split_ifs at h with hle
  exact ⟨hle, congrArg Subtype.val (Except.ok.inj h)⟩

end Tweezer
