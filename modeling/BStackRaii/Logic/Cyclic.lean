import Mathlib.Data.List.Basic
import Mathlib.Logic.Function.Basic
import Mathlib.Data.Nat.ModEq
import Mathlib.Tactic.Common
/-!
# Cyclic buffers

`cap` slots in a circle, of which the `len` from `head` on are in use. What a buffer holds is the list of
these slots, and adding or dropping an element at one end changes one slot or none.
-/

namespace BStackRaii

namespace Cyclic

variable {α : Type} {s s' : Nat → α} {cap cap' head len i j : Nat}

/-- The `len` slots from `head` on. -/
def window (s : Nat → α) (cap head len : Nat) : List α := (List.range len).map fun i => s ((head + i) % cap)

@[simp] theorem length_window : (window s cap head len).length = len := by
  rw [window, List.length_map, List.length_range]

theorem slots_ne (hij : i < j) (hcap : j < i + cap) : (head + i) % cap ≠ (head + j) % cap := by
  intro heq
  have hdvd : cap ∣ head + j - (head + i) := (Nat.modEq_iff_dvd' (by omega)).mp heq
  have hle := Nat.le_of_dvd (by omega) hdvd
  omega

theorem window_congr (h : ∀ i < len, s' ((head + i) % cap) = s ((head + i) % cap)) :
    window s' cap head len = window s cap head len :=
  List.map_congr_left fun i hi => h i (List.mem_range.mp hi)

theorem window_succ : window s cap head (len + 1) = window s cap head len ++ [s ((head + len) % cap)] := by
  rw [window, List.range_succ, List.map_append]
  rfl

theorem window_cons : window s cap head (len + 1) = s (head % cap) :: window s cap ((head + 1) % cap) len := by
  rw [window, List.range_succ_eq_map, List.map_cons, List.map_map, Nat.add_zero, window]
  congr 1
  apply List.map_congr_left
  intro i _
  show s ((head + (i + 1)) % cap) = s (((head + 1) % cap + i) % cap)
  rw [Nat.mod_add_mod, Nat.add_assoc, Nat.add_comm 1 i]

theorem push_back (v : α) (hlen : len < cap) :
    window (Function.update s ((head + len) % cap) v) cap head (len + 1) = window s cap head len ++ [v] := by
  rw [window_succ, Function.update_self]
  congr 1
  apply window_congr
  intro i hi
  exact Function.update_of_ne (slots_ne hi (by omega)) _ _

theorem push_front (v : α) (hlen : len < cap) (hhead : head < cap) :
    window (Function.update s ((head + (cap - 1)) % cap) v) cap ((head + (cap - 1)) % cap) (len + 1) =
      v :: window s cap head len := by
  have hback : ((head + (cap - 1)) % cap + 1) % cap = head := by
    rw [Nat.mod_add_mod, show head + (cap - 1) + 1 = head + cap by omega, Nat.add_mod_right, Nat.mod_eq_of_lt hhead]
  rw [window_cons, Nat.mod_mod, Function.update_self, hback]
  congr 1
  apply window_congr
  intro i hi
  apply Function.update_of_ne
  rw [← Nat.add_mod_right (head + i) cap, Nat.add_assoc head i cap]
  exact (slots_ne (by omega) (by omega)).symm

theorem pop_back : window s cap head (len - 1) = (window s cap head len).dropLast := by
  cases len with
  | zero => rfl
  | succ n =>
      rw [window_succ, List.dropLast_concat]
      rfl

theorem pop_front : window s cap ((head + 1) % cap) (len - 1) = (window s cap head len).tail := by
  cases len with
  | zero => rfl
  | succ n =>
      rw [window_cons]
      rfl

theorem getLast?_window (hlen : len ≠ 0) :
    (window s cap head len).getLast? = some (s ((head + (len - 1)) % cap)) := by
  obtain ⟨n, rfl⟩ := Nat.exists_eq_succ_of_ne_zero hlen
  rw [window_succ, List.getLast?_concat]
  rfl

theorem head?_window (hlen : len ≠ 0) : (window s cap head len).head? = some (s (head % cap)) := by
  obtain ⟨n, rfl⟩ := Nat.exists_eq_succ_of_ne_zero hlen
  rw [window_cons]
  rfl

end Cyclic

end BStackRaii
