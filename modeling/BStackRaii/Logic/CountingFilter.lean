import Mathlib.Algebra.BigOperators.Group.Multiset.Basic
import Mathlib.Algebra.Order.Group.Multiset
import Mathlib.Algebra.Order.BigOperators.Group.Multiset
/-!
# Counting filters

A key names some of the counters `j < size`, each `weight key j` times. To add a key raises its counters, to take it
away lowers them, and a counter that has once come to `top` stays there. `Covers` is what a filter relies on: each
counter that is not at the top counts at least the keys that are in. So it shows every key that is in, whatever else
it shows.
-/

namespace BStackRaii

namespace CountingFilter

variable {K : Type} {top size : Nat} {weight : K → Nat → Nat} {count : Nat → Nat} {keys keys' : Multiset K} {key : K}

/-- A counter of `n` when a key that names it `times` times comes in. -/
def raised (top n times : Nat) : Nat := min (n + min times top) top

/-- A counter of `n` when a key that names it `times` times goes out. -/
def lowered (top n times : Nat) : Nat := if n = top then top else n - min times top

/-- What the keys count for at counter `j`. -/
def load (weight : K → Nat → Nat) (keys : Multiset K) (j : Nat) : Nat := (keys.map fun key => weight key j).sum

/-- Each counter is at the top, or counts all keys. -/
def Covers (top size : Nat) (weight : K → Nat → Nat) (count : Nat → Nat) (keys : Multiset K) : Prop :=
  ∀ j < size, count j = top ∨ load weight keys j ≤ count j

theorem load_add (weight : K → Nat → Nat) (keys keys' : Multiset K) (j : Nat) :
    load weight (keys + keys') j = load weight keys j + load weight keys' j := by
  rw [load, Multiset.map_add, Multiset.sum_add]
  rfl

theorem load_cons (weight : K → Nat → Nat) (key : K) (keys : Multiset K) (j : Nat) :
    load weight (key ::ₘ keys) j = weight key j + load weight keys j := by
  rw [load, Multiset.map_cons, Multiset.sum_cons]
  rfl

namespace Covers

theorem mono (h : Covers top size weight count (keys + keys')) : Covers top size weight count keys := by
  intro j hj
  refine (h j hj).imp id fun hle => ?_
  rw [load_add] at hle
  omega

/-- A key comes in. -/
theorem raise (h : Covers top size weight count keys) (key : K) :
    Covers top size weight (fun j => raised top (count j) (weight key j)) (key ::ₘ keys) := by
  intro j hj
  have hj := h j hj
  rw [load_cons]
  simp only [raised]
  omega

/-- A key that was in goes out. -/
theorem lower (h : Covers top size weight count (key ::ₘ keys)) :
    Covers top size weight (fun j => lowered top (count j) (weight key j)) keys := by
  intro j hj
  have hj := h j hj
  rw [load_cons] at hj
  simp only [lowered]
  split <;> omega

/-- No key that is in has a counter at zero. -/
theorem shows (h : Covers top size weight count (key ::ₘ keys)) (htop : 0 < top) {j : Nat} (hj : j < size)
    (hnamed : 0 < weight key j) : count j ≠ 0 := by
  have hj := h j hj
  rw [load_cons] at hj
  omega

theorem congr {count' : Nat → Nat} (h : Covers top size weight count keys) (heq : ∀ j < size, count' j = count j) :
    Covers top size weight count' keys := by
  intro j hj
  rw [heq j hj]
  exact h j hj

end Covers

end CountingFilter

end BStackRaii
