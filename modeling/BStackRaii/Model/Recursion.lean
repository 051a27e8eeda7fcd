import BStackRaii.Model.SlotWalk
/-!
# Native recursion of the walks

How deep the generated teardown and the generated deep clone call themselves. `TeardownDepthGuard` is entered by
`OwnedRef::bstack_drop` and by the drops of a strong reference; `BStackBlockVec::bstack_drop` calls `drop_block`
at once, so does the `bstack_drop` of a collection's value through `wal_teardown`, an embedded block is walked
in place, and `__bstack_clone_into` has no guard at all.

The collections of `stdlib` that own blocks (list, deque, map, tree and heap) are walked like the generated
types. What is left out of them is their own nodes: a tree bounds the descent to its nodes by itself.
-/

namespace BStackRaii

namespace SlotWalk

open Trail

/-- A type of blocks: a generated one, or a collection of values of type `value`. The deep clones of lists and
deques look at a value's offset first (`checked`), those of maps, trees and heaps do not. -/
inductive BlockKind
  | generated (T : GenType)
  | collection (value : EightCC) (checked : Bool)

/-- `values` are the words of the values of the collection at an offset, as its own code finds them. -/
structure Storage extends Surroundings where
  values : Nat → Except IoError (List Nat)

namespace BlockKind

/-- `__bstack_drop_children`. -/
def dropChildren (s : Storage) (start : Nat) : BlockKind → Trail
  | generated T => T.dropChildren s.toSurroundings start
  | collection value _ => reading (s.values start) (each (childRangeStmt (.element value)))

/-- `__bstack_clone_children_inplace`. -/
def cloneChildren (s : Storage) (start : Nat) : BlockKind → Trail
  | generated T => T.cloneChildren s.toSurroundings start
  | collection value checked => reading (s.values start) (each fun off =>
      if checked then childRangeStmt (.copy value) off else touch (.copy value) off)

end BlockKind

/-- How many levels of `TeardownDepthGuard` the call behind an action takes. -/
def Action.guards : Action → Nat
  | owned _ => 1
  | strong _ => 1
  | _ => 0

def Event.guards : Event → Nat
  | touch t => t.action.guards
  | inplace _ _ => 0

/-- `n` calls deeper than the walk of `b`, which holds `depth` levels of the guard. Each walk has files of its own,
since what has been torn down before may have changed them. -/
inductive Nest {Files : Type} (walk : Files → BlockAt → Trail) : Nat → BlockAt → Nat → Prop
  | here (depth : Nat) (b : BlockAt) : Nest walk depth b 0
  | deeper (files : Files) {depth n : Nat} {b b' : BlockAt} {e : Event} (hmem : e ∈ (walk files b).events)
      (hblock : e.block b = some b') (hguard : depth + e.guards ≤ MAX_TEARDOWN_DEPTH)
      (h : Nest walk (depth + e.guards) b' n) : Nest walk depth b (n + 1)

/-! ### Runs -/

/-- What a call meets: it fails, or it finds whether the strong reference that it gives back is the last one. -/
abbrev Meets := BlockAt → Event → Except IoError Bool

/-- Whether the call behind an event walks the block. -/
def Event.walks (last : Bool) : Event → Bool
  | touch ⟨_, .strong _, _⟩ => last
  | _ => true

/-- The call behind an event of the walk of `b`, where `nested` walks a block. -/
def Event.call (meets : Meets) (nested : Nat → BlockAt → Option (Except IoError Unit)) (depth : Nat) (b : BlockAt)
    (e : Event) : Option (Except IoError Unit) :=
  if depth + e.guards > MAX_TEARDOWN_DEPTH then some (.error teardownTooDeep)
  else match meets b e, e.block b with
    | .error err, _ => some (.error err)
    | .ok last, some b' => if e.walks last then nested (depth + e.guards) b' else some (.ok ())
    | .ok _, none => some (.ok ())

/-- The calls of a walk, in order, up to the first one that does not return `Ok`. -/
def inOrder (call : Event → Option (Except IoError Unit)) (out : Except IoError Unit) :
    List Event → Option (Except IoError Unit)
  | [] => some out
  | e :: es =>
      match call e with
      | some (.ok ()) => inOrder call out es
      | result => result

/-- The walk of a block, with all that it calls, on a native stack that `limit` calls fill. -/
def run (walk : BlockAt → Trail) (meets : Meets) : Nat → Nat → BlockAt → Option (Except IoError Unit)
  | 0, _, _ => none
  | limit + 1, depth, b => inOrder (Event.call meets (run walk meets limit) depth b) (walk b).out (walk b).events

/-- The teardown of a block by its type. -/
def dropBlock (types : EightCC → BlockKind) (files : Nat → Storage) (b : BlockAt) : Trail :=
  (types b.tag).dropChildren (files b.file) b.off

def cloneBlock (types : EightCC → BlockKind) (files : Nat → Storage) (b : BlockAt) : Trail :=
  (types b.tag).cloneChildren (files b.file) b.off

end SlotWalk

end BStackRaii
