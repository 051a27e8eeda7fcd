import Mathlib.Data.Set.Card
import Mathlib.Logic.Relation
/-!
# Ranks of acyclic relations

A relation on a finite type without cycles can be ranked: the number of things that are reached from one goes
down with every step.
-/

namespace BStackRaii

namespace Rank

variable {α : Type} (r : α → α → Prop)

/-- No step leads back. -/
def Acyclic : Prop := ∀ a, ¬ Relation.TransGen r a a

/-- How many things are reached by steps from `a`. -/
noncomputable def rank (a : α) : Nat := {b | Relation.TransGen r a b}.ncard

variable {r}

theorem rank_le [Finite α] (a : α) : rank r a ≤ Nat.card α := Set.ncard_le_card _

theorem rank_lt [Finite α] (hr : Acyclic r) {a b : α} (h : r a b) : rank r b < rank r a := by
  refine Set.ncard_lt_ncard ?_ (Set.toFinite _)
  refine ⟨fun c hc => .head h hc, fun hsub => ?_⟩
  exact hr b (hsub (.single h))

end Rank

end BStackRaii
