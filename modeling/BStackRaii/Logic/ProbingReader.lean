import BStackRaii.Logic.Probing
import Mathlib.Data.Nat.ModEq
/-!
# Searches that others interrupt

A search that looks at one slot at a time, while others change the table in between. As long as every change is
`Steady`, a key that was there all the time is found: it keeps its slot until it is removed, and what is removed was
absent at that moment.
-/

namespace BStackRaii

namespace Probing

variable {K V : Type} {home : K → Nat} {cap : Nat} {s s' : Nat → Slot K V} {k : K} {left cur d : Nat}

/-- `k` lies in one of the next `left` slots from `cur` on. -/
def Ahead (cap : Nat) (s : Nat → Slot K V) (k : K) (left cur : Nat) : Prop :=
  ∃ j < left, ∃ v, s ((cur + j) % cap) = .occupied k v

/-- From `s` to `s'`, a key stays where it is or goes away. -/
def Steady (cap : Nat) (s s' : Nat → Slot K V) : Prop :=
  ∀ i < cap, ∀ k v, s i = .occupied k v → (∃ v', s' i = .occupied k v') ∨ Absent cap s' k

theorem steady_refl (cap : Nat) (s : Nat → Slot K V) : Steady cap s s := fun _ _ _ v h => .inl ⟨v, h⟩

/-- A key that is there is ahead of a search that starts. -/
theorem ahead_of_not_absent (h : ¬ Absent cap s k) (start : Nat) : Ahead cap s k cap (start % cap) := by
  simp only [Absent, not_forall, not_not] at h
  obtain ⟨i, hi, v, hs⟩ := h
  obtain ⟨d, hd, hat⟩ := exists_steps start hi
  refine ⟨d, hd, v, ?_⟩
  rw [Nat.mod_add_mod, hat, hs]

theorem Ahead.steady (h : Ahead cap s k left cur) (hcap : 0 < cap) (hs : Steady cap s s') :
    Ahead cap s' k left cur ∨ Absent cap s' k := by
  obtain ⟨j, hj, v, hat⟩ := h
  exact (hs _ (Nat.mod_lt _ hcap) k v hat).imp (fun hv => ⟨j, hj, hv⟩) id

theorem not_ahead_zero : ¬ Ahead cap s k 0 cur := by
  rintro ⟨j, hj, -⟩
  omega

/-- The search sees its key, or goes on with the key still ahead of it. -/
theorem Probed.ahead_next (hp : Probed home cap s) (h : Ahead cap s k (left + 1) cur)
    (hcur : cur = (home k + d) % cap) (hleft : d + (left + 1) = cap) :
    (∃ v, s cur = .occupied k v) ∨ (s cur ≠ .empty ∧ Ahead cap s k left ((cur + 1) % cap)) := by
  obtain ⟨j, hj, v, hat⟩ := h
  have hlt : cur < cap := hcur ▸ Nat.mod_lt _ (by omega)
  cases j with
  | zero =>
      rw [Nat.add_zero, Nat.mod_eq_of_lt hlt] at hat
      exact .inl ⟨v, hat⟩
  | succ j =>
      refine .inr ⟨fun hempty => ?_, j, by omega, v, ?_⟩
      · -- the way from the home of `k` to its slot passes `cur`
        have hslot : (home k + (d + (j + 1))) % cap < cap := Nat.mod_lt _ (by omega)
        rw [hcur, Nat.mod_add_mod, Nat.add_assoc] at hat
        obtain ⟨e, he, hsame, hopen⟩ := hp.reach hslot hat
        have heq : e = d + (j + 1) := by
          have hmod : home k + e ≡ home k + (d + (j + 1)) [MOD cap] := hsame
          have hres := Nat.ModEq.add_left_cancel' (home k) hmod
          rwa [Nat.ModEq, Nat.mod_eq_of_lt he, Nat.mod_eq_of_lt (by omega)] at hres
        exact hopen d (by omega) (hcur ▸ hempty)
      · rw [Nat.mod_add_mod, Nat.add_assoc, Nat.add_comm 1 j]
        exact hat

/-! ### Steady changes -/

/-- A slot that holds no key may change. -/
theorem steady_fill {i : Nat} (hfree : (s i).isOccupied = false) (x : Slot K V) :
    Steady cap s (Function.update s i x) := by
  intro j hj k v hs
  by_cases hji : j = i
  · rw [hji] at hs
    rw [hs] at hfree
    cases hfree
  · exact .inl ⟨v, by rwa [Function.update_of_ne hji]⟩

theorem steady_replace {i : Nat} {v : V} (hs : s i = .occupied k v) (v' : V) :
    Steady cap s (Function.update s i (.occupied k v')) := by
  intro j hj k₁ v₁ h
  by_cases hji : j = i
  · rw [hji, hs] at h
    cases h
    exact .inl ⟨v', by rw [hji, Function.update_self]⟩
  · exact .inl ⟨v₁, by rwa [Function.update_of_ne hji]⟩

/-- A key lies in one slot only, so it is gone with it. -/
theorem Probed.steady_remove (hp : Probed home cap s) {i : Nat} {v : V} (hi : i < cap) (hs : s i = .occupied k v) :
    Steady cap s (Function.update s i .tombstone) := by
  intro j hj k₁ v₁ h
  by_cases hji : j = i
  · rw [hji, hs] at h
    cases h
    refine .inr fun l hl v₂ hat => ?_
    by_cases hli : l = i
    · rw [hli, Function.update_self] at hat
      cases hat
    · rw [Function.update_of_ne hli] at hat
      exact hli (hp.unique hl hi hat hs)
  · exact .inl ⟨v₁, by rwa [Function.update_of_ne hji]⟩

end Probing

end BStackRaii
