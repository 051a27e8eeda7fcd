import BStackRaii.Model.Shared
import Mathlib.Algebra.Order.Sub.Basic
import Mathlib.Data.Multiset.OrderedMonoid
import Mathlib.Logic.Relation
/-!
# The blocks of a shared structure

What an atomic step may do to the blocks of a file: nothing, hand one out, or free one. Whoever owns
blocks, each for itself, still does after a step of another.
-/

namespace BStackRaii

variable {k : Nat} {w w' : World} {g f own own' : Multiset Range} {r : Range}

/-- From `w` to `w'`, the blocks `g` are handed out and the blocks `f` are freed in file `k`. -/
inductive Flow (k : Nat) (w w' : World) : Multiset Range → Multiset Range → Prop
  | none (h : (w'.files k).live = (w.files k).live) : Flow k w w' 0 0
  | grant (r : Range) (h : (w'.files k).live = r :: (w.files k).live) : Flow k w w' {r} 0
  | free (r : Range) (hr : r ∈ (w.files k).live) (h : (w'.files k).live = (w.files k).live.erase r) :
      Flow k w w' 0 {r}

/-- An allocation that no I/O fault disturbs finds no space, or takes a place that is free. -/
theorem alloc_step (a : Allocator) (size : Nat) (hq : w.Quiet) :
    (∃ w', alloc a size w = ⟨.error outOfSpace, w', [w]⟩ ∧ w'.files = w.files ∧ w'.Quiet) ∨
    ∃ r, ∃ h : (w.files a.stack).Admits r, r.len = size ∧ alloc a size w = ⟨.ok r, w.grant a.stack r h, [w]⟩ := by
  cases hp : w.picks with
  | nil => exact .inl ⟨w.tick, by simp [alloc, hq.not_faulty, hp], rfl, by rw [hq.tick_eq]; exact hq⟩
  | cons p ps =>
      by_cases h : (w.files a.stack).Admits ⟨p, size⟩
      · exact .inr ⟨_, h, rfl, alloc_run hq hp h⟩
      · refine .inl ⟨{ w.tick with picks := ps }, by simp [alloc, hq.not_faulty, hp, dif_neg h], rfl, ?_⟩
        rw [hq.tick_eq]
        exact hq

theorem nodup_live (k : Nat) (w : World) : (↑(w.files k).live : Multiset Range).Nodup :=
  Multiset.coe_nodup.mpr (w.files k).nodup_live

namespace Flow

theorem live_eq (h : Flow k w w' g f) :
    (↑(w'.files k).live : Multiset Range) + f = ↑(w.files k).live + g := by
  cases h with
  | none h => rw [h]
  | grant r h => rw [h, add_zero, ← Multiset.cons_coe, add_comm, Multiset.singleton_add]
  | free r hr h =>
      rw [h, add_zero, ← Multiset.coe_erase, add_comm, Multiset.singleton_add]
      exact Multiset.cons_erase hr

theorem granted (h : Flow k w w' g f) : newBlocks k w w' = g := by
  cases h with
  | none h => rw [newBlocks, h, tsub_self]
  | grant r h => rw [newBlocks, h, ← Multiset.cons_coe, ← Multiset.singleton_add, add_tsub_cancel_right]
  | free r hr h =>
      rw [newBlocks, h, ← Multiset.coe_erase]
      exact tsub_eq_zero_of_le (Multiset.erase_le r _)

theorem freed (h : Flow k w w' g f) : newBlocks k w' w = f := by
  cases h with
  | none h => rw [newBlocks, h, tsub_self]
  | grant r h =>
      rw [newBlocks, h, ← Multiset.cons_coe]
      exact tsub_eq_zero_of_le (Multiset.le_cons_self _ r)
  | free r hr h =>
      have hcons : (↑(w.files k).live : Multiset Range) = {r} + (↑(w.files k).live : Multiset Range).erase r := by
        rw [Multiset.singleton_add]
        exact (Multiset.cons_erase hr).symm
      rw [newBlocks, h, ← Multiset.coe_erase]
      nth_rewrite 1 [hcons]
      exact add_tsub_cancel_right ..

theorem own_le (h : Flow k w w' g f) (hown : own ≤ ↑(w.files k).live) (heq : own' + f = own + g) :
    own' ≤ ↑(w'.files k).live := by
  have hle : own' + f ≤ ↑(w'.files k).live + f := by
    rw [heq, h.live_eq]
    exact Multiset.add_le_add_right hown
  exact Multiset.add_le_add_iff_right.mp hle

end Flow

theorem LeavesBe.own_le (h : LeavesBe k own w w') (hown : own ≤ ↑(w.files k).live) :
    own ≤ ↑(w'.files k).live := by
  apply (Multiset.le_iff_subset (Multiset.nodup_of_le hown (nodup_live k w))).mpr
  intro r hr
  exact Multiset.mem_coe.mpr (h.keeps r hr (Multiset.mem_coe.mp (Multiset.mem_of_le hown hr)))

/-! ### Schedules -/

section Schedules

variable {Op Res : Type} {fixed : Multiset Range} {code : Nat → Op → Script IoError World Res}

/-- A call starts, or the call `id` makes its next step or returns. -/
inductive Move (Op : Type)
  | call (id attempts : Nat) (op : Op)
  | turn (id : Nat)

def Move.turns (n id : Nat) : List (Move Op) := List.replicate n (.turn id)

def Task.pick (id : Nat) : List (Task Op Res) → Option (Task Op Res × List (Task Op Res))
  | [] => none
  | t :: ts => if t.id = id then some (t, ts) else (Task.pick id ts).map fun found => (found.1, t :: found.2)

theorem Task.pick_eq {id : Nat} {ts rest : List (Task Op Res)} {t : Task Op Res}
    (h : Task.pick id ts = some (t, rest)) :
    (↑ts : Multiset (Task Op Res)) = t ::ₘ ↑rest := by
  induction ts generalizing rest with
  | nil => cases h
  | cons u ts ih =>
      rw [Task.pick] at h
      split at h
      · cases h
        rfl
      · obtain ⟨found, hfound, heq⟩ := Option.map_eq_some_iff.mp h
        cases heq
        rw [← Multiset.cons_coe, ih hfound, Multiset.cons_swap, Multiset.cons_coe]

/-- A shared structure whose runs can be computed: its calls and blocks are lists. -/
structure Played (Op Res : Type) where
  world : World
  tasks : List (Task Op Res)
  events : List (Linearize.Event Op (Except IoError Res))
  granted : List Range
  freed : List Range

namespace Played

def shared (p : Played Op Res) : Shared Op Res := ⟨p.world, p.tasks, p.events, p.granted, p.freed⟩

def idle (w : World) : Played Op Res := ⟨w, [], [], [], []⟩

def turn (k : Nat) (p : Played Op Res) : Task Op Res × List (Task Op Res) → Played Op Res
  | (⟨id, _, .done out⟩, rest) => { p with tasks := rest, events := p.events ++ [.ret id out] }
  | (⟨id, op, .step c next⟩, rest) =>
      { p with
        world := (c p.world).final
        tasks := ⟨id, op, next (c p.world).out⟩ :: rest
        granted := p.granted ++ ((c p.world).final.files k).live.diff (p.world.files k).live
        freed := p.freed ++ (p.world.files k).live.diff ((c p.world).final.files k).live }

def move (k : Nat) (code : Nat → Op → Script IoError World Res) (p : Played Op Res) : Move Op → Played Op Res
  | .call id attempts op =>
      if ∀ e ∈ p.events, e.id ≠ id then
        { p with tasks := ⟨id, op, code attempts op⟩ :: p.tasks, events := p.events ++ [.call id op] }
      else p
  | .turn id => (Task.pick id p.tasks).elim p (p.turn k)

def play (k : Nat) (code : Nat → Op → Script IoError World Res) (p : Played Op Res) (moves : List (Move Op)) :
    Played Op Res :=
  moves.foldl (move k code) p

theorem turn_step {p : Played Op Res} {t : Task Op Res} {rest : List (Task Op Res)} {id : Nat}
    (h : Task.pick id p.tasks = some (t, rest)) : Shared.Step k fixed code p.shared (p.turn k (t, rest)).shared := by
  obtain ⟨id, op, script⟩ := t
  cases script with
  | done out => exact .returns id op out rest (Task.pick_eq h)
  | step c next =>
      have hstep : Shared.Step k fixed code p.shared _ := .atomic id op c next rest (Task.pick_eq h)
      rw [newBlocks, newBlocks, Multiset.coe_sub, Multiset.coe_sub] at hstep
      exact hstep

theorem move_steps (p : Played Op Res) (m : Move Op) :
    Relation.ReflTransGen (Shared.Step k fixed code) p.shared (p.move k code m).shared := by
  cases m with
  | call id attempts op =>
      rw [move]
      split
      case isTrue hid => exact .single (.call id attempts op hid)
      case isFalse => exact .refl
  | turn id =>
      rw [move]
      cases hpick : Task.pick id p.tasks with
      | none => exact .refl
      | some found => exact .single (turn_step hpick)

/-- What a schedule comes to is reached. -/
theorem play_steps (p : Played Op Res) (moves : List (Move Op)) :
    Relation.ReflTransGen (Shared.Step k fixed code) p.shared (p.play k code moves).shared := by
  induction moves generalizing p with
  | nil => exact .refl
  | cons m moves ih => exact (move_steps p m).trans (ih (p.move k code m))

end Played

end Schedules

end BStackRaii
