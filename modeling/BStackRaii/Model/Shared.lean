import BStackRaii.Logic.Linearize
import BStackRaii.Logic.Threads
import BStackRaii.Model.Gen
import Mathlib.Algebra.Order.Group.Multiset
/-!
# A structure shared by threads

Any number of threads call the operations of one structure of a file. Each call is a script, and its
atomic steps interleave with those of the other calls and with whatever else runs on the file. The
structure owns the blocks `fixed`, and the blocks that its calls have allocated and not freed.
-/

namespace BStackRaii

open Linearize

/-- A call in flight, and what it has left to do. -/
structure Task (Op Res : Type) where
  id : Nat
  op : Op
  code : Script IoError World Res

/-- The calls in flight, the history of calls and returns, and the blocks that calls allocated and freed. -/
structure Shared (Op Res : Type) where
  world : World
  tasks : Multiset (Task Op Res)
  events : List (Event Op (Except IoError Res))
  granted : Multiset Range
  freed : Multiset Range

/-- The blocks of file `k` that are in `w'` and not in `w`. -/
def newBlocks (k : Nat) (w w' : World) : Multiset Range := ↑(w'.files k).live - ↑(w.files k).live

/-- Other code on the file leaves the blocks `own` alone. -/
structure LeavesBe (k : Nat) (own : Multiset Range) (w w' : World) : Prop where
  quiet : w'.Quiet
  keeps : ∀ r ∈ own, r ∈ (w.files k).live → r ∈ (w'.files k).live
  bytes : ∀ r ∈ own, r ∈ (w.files k).live → ∀ x, r.start ≤ x → x < r.stop →
    (w'.files k).bytes x = (w.files k).bytes x

namespace Shared

variable {Op Res : Type}

/-- The blocks of the structure. -/
def owned (fixed : Multiset Range) (s : Shared Op Res) : Multiset Range := fixed + (s.granted - s.freed)

/-- One step: a call starts, makes an atomic step or returns, or other code runs. `attempts` bounds the
rounds of the loops in `code`. -/
inductive Step (k : Nat) (fixed : Multiset Range) (code : Nat → Op → Script IoError World Res) :
    Shared Op Res → Shared Op Res → Prop
  | call {s : Shared Op Res} (id attempts : Nat) (op : Op) (hid : ∀ e ∈ s.events, e.id ≠ id) :
      Step k fixed code s { s with
        tasks := ⟨id, op, code attempts op⟩ ::ₘ s.tasks
        events := s.events ++ [.call id op] }
  | atomic {s : Shared Op Res} {β : Type} (id : Nat) (op : Op) (c : Io β)
      (next : Except IoError β → Script IoError World Res) (rest : Multiset (Task Op Res))
      (htasks : s.tasks = ⟨id, op, .step c next⟩ ::ₘ rest) :
      Step k fixed code s { s with
        world := (c s.world).final
        tasks := ⟨id, op, next (c s.world).out⟩ ::ₘ rest
        granted := s.granted + newBlocks k s.world (c s.world).final
        freed := s.freed + newBlocks k (c s.world).final s.world }
  | returns {s : Shared Op Res} (id : Nat) (op : Op) (out : Except IoError Res)
      (rest : Multiset (Task Op Res)) (htasks : s.tasks = ⟨id, op, .done out⟩ ::ₘ rest) :
      Step k fixed code s { s with tasks := rest, events := s.events ++ [.ret id out] }
  | elsewhere {s : Shared Op Res} (w : World) (h : LeavesBe k (s.owned fixed) s.world w) :
      Step k fixed code s { s with world := w }

end Shared

end BStackRaii
