import Mathlib.Data.List.Basic
import Mathlib.Data.List.Perm.Basic
/-!
# Half-open address ranges

Ranges, and what it means for two of them to be told apart as allocations.
-/

namespace BStackRaii

/-- The range of `len` addresses from `start` on. -/
structure Range where
  start : Nat
  len : Nat
deriving DecidableEq, Repr

namespace Range

def stop (r : Range) : Nat := r.start + r.len

/-- Two allocations: distinct, and without a common address. -/
def Apart (a b : Range) : Prop := a ≠ b ∧ (a.stop ≤ b.start ∨ b.stop ≤ a.start)

instance (a b : Range) : Decidable (Apart a b) := inferInstanceAs (Decidable (_ ∧ _))

theorem Apart.symm {a b : Range} (h : a.Apart b) : b.Apart a := ⟨h.1.symm, h.2.symm⟩

theorem not_apart_self (a : Range) : ¬ a.Apart a := fun h => h.1 rfl

end Range

/-- Members of a pairwise apart list are apart or equal. -/
theorem apart_of_mem {rs : List Range} (hrs : rs.Pairwise Range.Apart) {a b : Range} (ha : a ∈ rs)
    (hb : b ∈ rs) (hne : a ≠ b) : a.Apart b := by
  induction hrs with
  | nil => cases ha
  | cons hx _ ih =>
      rcases List.mem_cons.mp ha with rfl | ha' <;> rcases List.mem_cons.mp hb with rfl | hb'
      · exact absurd rfl hne
      · exact hx b hb'
      · exact (hx a ha').symm
      · exact ih ha' hb'

theorem nodup_of_apart {rs : List Range} (hrs : rs.Pairwise Range.Apart) : rs.Nodup :=
  hrs.imp fun h => h.1

end BStackRaii
