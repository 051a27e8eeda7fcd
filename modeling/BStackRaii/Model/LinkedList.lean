import BStackRaii.Model.Update
/-!
# The linked list

`stdlib/list.rs`. A node is a block of its own that holds the offsets of its neighbours and one reference to
a value block. Every node looks the same whatever the values are, so a value is its offset here. `tag` is
the type tag of the node headers.

The two ends differ in which words they use. `Side` names them, and a push or a pop is one definition over
it.
-/

namespace BStackRaii

namespace BStackLinkedList

def HEAD_OFF : Nat := HEADER_SIZE

def TAIL_OFF : Nat := HEADER_SIZE + 8

def LEN_OFF : Nat := HEADER_SIZE + 16

def NPREV_OFF : Nat := HEADER_SIZE

def NNEXT_OFF : Nat := HEADER_SIZE + 8

def NVAL_OFF : Nat := HEADER_SIZE + 16

def LIST_SIZE : Nat := HEADER_SIZE + 24

def NODE_SIZE : Nat := HEADER_SIZE + 24

def chainTooLong : IoError :=
  ⟨.invalidData, "linked list chain longer than its stored len (a next-pointer cycle?)"⟩

def mutatedMsg : IoError :=
  ⟨.invalidData, "BStackLinkedList was mutated during iteration (its length changed); the iterator is invalidated"⟩

def nodeImage (tag : UInt64) (prev next value : Nat) : List UInt8 :=
  leBytes 8 NODE_SIZE ++ leBytes 8 tag.toNat ++ leBytes 8 prev ++ leBytes 8 next ++ leBytes 8 value

/-- Allocate an empty list. `tag` is the type tag of its header. -/
def new (a : Allocator) (tag : UInt64) : Io Range :=
  allocImage a (leBytes 8 LIST_SIZE ++ leBytes 8 tag.toNat ++ leBytes 8 0 ++ leBytes 8 0 ++ leBytes 8 0)

/-! ### The two ends -/

inductive Side
  | front
  | back
deriving DecidableEq, Repr

namespace Side

def flip : Side → Side
  | front => back
  | back => front

/-- The word of the list that points at this end. -/
def endOff : Side → Nat
  | front => HEAD_OFF
  | back => TAIL_OFF

/-- The word of a node that points away from this end. -/
def inward : Side → Nat
  | front => NNEXT_OFF
  | back => NPREV_OFF

/-- The word of a node that points towards this end. -/
def outward (s : Side) : Nat := s.flip.inward

/-- A node that becomes this end, in front of `neighbour`. -/
def newNode (tag : UInt64) (neighbour value : Nat) : Side → List UInt8
  | front => nodeImage tag 0 neighbour value
  | back => nodeImage tag neighbour 0 value

end Side

section Operations

variable (a : Allocator) (list : Nat)

/-- The writes that link `node` in at the end `s`, where `old` was. -/
def linkWrites (tag : UInt64) (s : Side) (node valOff old len : Nat) : Except IoError Batch := do
  let link ← if old ≠ 0 then checkedOff old s.outward else .ok (list + s.flip.endOff)
  pure [(node, s.newNode tag old valOff), w8 link node, w8 (list + s.endOff) node, w8 (list + LEN_OFF) (len + 1)]

/-- A push at the end `s`. On an error the value stays with the caller. -/
def push (tag : UInt64) (s : Side) (valOff : UInt64) : Script IoError World Unit := do
  let node ← .atom (alloc a NODE_SIZE)
  let res ← .attempt (atomicUpdate a [list + s.endOff, list + LEN_OFF] (fun _ => .ok []) fun v1 _ => do
    let ws ← linkWrites list tag s node.start valOff.toNat (v1.getD 0 0) (v1.getD 1 0)
    pure (ws, ()))
  match res with
  | .ok () => pure ()
  | .error e => do
      let _ ← .attempt (.atom (deallocRange a ⟨node.start, NODE_SIZE⟩))
      .fail e

def pushBack (tag : UInt64) (valOff : UInt64) : Script IoError World Unit := push a list tag .back valOff

def pushFront (tag : UInt64) (valOff : UInt64) : Script IoError World Unit := push a list tag .front valOff

/-- The writes that take the node at the end `s` out, where `next` is behind it. -/
def unlinkWrites (s : Side) (next len : Nat) : Except IoError Batch := do
  let ends ← if next ≠ 0 then do
      let link ← checkedOff next s.outward
      pure [w8 link 0, w8 (list + s.endOff) next]
    else .ok [w8 (list + HEAD_OFF) 0, w8 (list + TAIL_OFF) 0]
  pure (ends ++ [w8 (list + LEN_OFF) (wrappingPred len)])

/-- The generator of a pop. It tells the node and its value. -/
def unlink (s : Side) : Script IoError World (Option (Nat × Nat)) :=
  atomicUpdate a [list + s.endOff, list + LEN_OFF]
    (fun v1 =>
      if v1.getD 0 0 = 0 then .ok []
      else do
        let link ← checkedOff (v1.getD 0 0) s.inward
        let value ← checkedOff (v1.getD 0 0) NVAL_OFF
        pure [link, value])
    fun v1 v2 =>
      if v1.getD 0 0 = 0 then .ok ([], none)
      else do
        let ws ← unlinkWrites list s (v2.getD 0 0) (v1.getD 1 0)
        pure (ws, some (v1.getD 0 0, v2.getD 1 0))

/-- A pop at the end `s`. -/
def pop (s : Side) : Script IoError World (Option UInt64) := do
  let taken ← unlink a list s
  match taken with
  | none => pure none
  | some (node, val) => do
      .atom (deallocRange a ⟨node, NODE_SIZE⟩)
      pure (some (UInt64.ofNat val))

def popBack : Script IoError World (Option UInt64) := pop a list .back

def popFront : Script IoError World (Option UInt64) := pop a list .front

def len : Io Nat := readU64 a.stack (list + LEN_OFF)

/-! ### Walking -/

/-- The walk of `to_vec` from the node `cur`, over at most `remaining` nodes. -/
def toVecFrom : Nat → Nat → Io (List UInt64)
  | 0, cur => if cur = 0 then pure [] else Prog.fail chainTooLong
  | remaining + 1, cur =>
      if cur = 0 then pure []
      else do
        let off ← Prog.lift (checkedOff cur NNEXT_OFF)
        let fields ← readFields a.stack off 2
        let rest ← toVecFrom remaining (fields.getD 0 0)
        pure (UInt64.ofNat (fields.getD 1 0) :: rest)

def toVec : Io (List UInt64) := do
  let cur ← readU64 a.stack (list + HEAD_OFF)
  let remaining ← len a list
  toVecFrom a remaining cur

structure ListIter where
  blockOff : Nat
  len0 : Nat
  cur : Nat
  remaining : Nat
deriving DecidableEq, Repr

def iter : Io ListIter := do
  let head ← readU64 a.stack (list + HEAD_OFF)
  let remaining ← len a list
  pure ⟨list, remaining, head, remaining⟩

/-- `next`. An error ends the iteration. -/
def ListIter.next (it : ListIter) : Io (Option UInt64 × ListIter) :=
  if it.cur = 0 then pure (none, it)
  else do
    let len ← readU64 a.stack (it.blockOff + LEN_OFF)
    if len ≠ it.len0 then Prog.fail mutatedMsg
    else match it.remaining with
      | 0 => Prog.fail chainTooLong
      | remaining + 1 => do
          let off ← Prog.lift (checkedOff it.cur NNEXT_OFF)
          let fields ← readFields a.stack off 2
          pure (some (UInt64.ofNat (fields.getD 1 0)), { it with cur := fields.getD 0 0, remaining })

/-- Call `next` until it says that nothing is left, at most `calls` times. -/
def ListIter.drain : Nat → ListIter → Io (List UInt64)
  | 0, _ => pure []
  | calls + 1, it => do
      let (item, it') ← it.next a
      match item with
      | none => pure []
      | some val => do
          let rest ← drain calls it'
          pure (val :: rest)

/-! ### Teardown and clone -/

/-- The walk of `__bstack_drop_children` from the node `cur`, over at most `remaining` nodes. `dropValue` tears
a value block down and `dealloc` is `dealloc_range`. The list in front of the world is that of the nodes
handed to `dealloc`. -/
def dropFrom (dropValue : Nat → Io Unit) (dealloc : Range → Io Unit) : Nat → Nat → Prog IoError (List Nat × World) Unit
  | 0, cur => if cur = 0 then pure () else Prog.fail chainTooLong
  | remaining + 1, cur =>
      if cur = 0 then pure ()
      else do
        let nextOff ← Prog.lift (checkedOff cur NNEXT_OFF)
        let next ← Prog.onSnd (readU64 a.stack nextOff)
        let valOff ← Prog.lift (checkedOff cur NVAL_OFF)
        let val ← Prog.onSnd (readU64 a.stack valOff)
        Prog.onSnd (if val ≠ 0 then dropValue val else pure ())
        Prog.onFst fun nodes => nodes ++ [cur]
        Prog.onSnd (dealloc ⟨cur, NODE_SIZE⟩)
        dropFrom dropValue dealloc remaining next

/-- `__bstack_drop_children`. -/
def dropChildren (dropValue : Nat → Io Unit) (dealloc : Range → Io Unit) : Prog IoError (List Nat × World) Unit := do
  let cur ← Prog.onSnd (readU64 a.stack (list + HEAD_OFF))
  let remaining ← Prog.onSnd (readU64 a.stack (list + LEN_OFF))
  dropFrom a dropValue dealloc remaining cur

/-- The nodes that a teardown frees, in order. A WAL-backed one collects its frees, and drops them all when
the walk fails. The others free as they go. -/
def freedNodes (collects : Bool) (dropValue : Nat → Io Unit) (free : Range → Io Unit) (w : World) : List Nat :=
  if collects then
    match (dropChildren a list dropValue (fun _ => pure ()) ([], w)).out with
    | .ok _ => (dropChildren a list dropValue (fun _ => pure ()) ([], w)).final.1
    | .error _ => []
  else (dropChildren a list dropValue free ([], w)).final.1

/-- The first loop of a clone: the values from the node `cur` on, over at most `remaining` nodes. -/
def gatherFrom : Nat → Nat → Io (List Nat)
  | 0, cur => if cur = 0 then pure [] else Prog.fail chainTooLong
  | remaining + 1, cur =>
      if cur = 0 then pure []
      else do
        let valOff ← Prog.lift (checkedOff cur NVAL_OFF)
        let val ← readU64 a.stack valOff
        let nextOff ← Prog.lift (checkedOff cur NNEXT_OFF)
        let next ← readU64 a.stack nextOff
        let rest ← gatherFrom remaining next
        pure (val :: rest)

def gather : Io (List Nat) := do
  let cur ← readU64 a.stack (list + HEAD_OFF)
  let remaining ← readU64 a.stack (list + LEN_OFF)
  gatherFrom a remaining cur

end Operations

end BStackLinkedList

end BStackRaii
