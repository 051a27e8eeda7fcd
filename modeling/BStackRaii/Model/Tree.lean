import BStackRaii.Logic.Plan
import BStackRaii.Model.World
/-!
# The copy-on-write B-tree map

`stdlib/tree.rs`. A node holds its keys inline, with one value reference each, and an internal node
holds the offsets of its children. A mutation copies the path it changes into new nodes, commits them
with the new root pointer in one `set_batched`, and then frees the nodes it replaced.

What a mutation does to nodes is a `Plan`. Its recursion is native in the source, so it takes the
depth of the native stack as an argument.
-/

namespace BStackRaii

namespace BStackBTreeMap

def ROOT_OFF : Nat := HEADER_SIZE

def LEN_OFF : Nat := HEADER_SIZE + 8

def TREE_SIZE : Nat := HEADER_SIZE + 16

/-- The minimum degree. -/
def T : Nat := 8

def MAXKEYS : Nat := 2 * T - 1

def MAXCHILDREN : Nat := 2 * T

def MAX_TREE_DEPTH : Nat := 64

def NKEYS_OFF : Nat := HEADER_SIZE

def LEAF_OFF : Nat := HEADER_SIZE + 8

def KEYS_OFF : Nat := HEADER_SIZE + 16

def valsOff (ksize : Nat) : Nat := KEYS_OFF + MAXKEYS * ksize

def childrenOff (ksize : Nat) : Nat := valsOff ksize + MAXKEYS * 8

def nodeSize (ksize : Nat) : Nat := childrenOff ksize + MAXCHILDREN * 8

/-! ### Errors -/

def depthExceeded : IoError :=
  ⟨.invalidData, "B-tree deeper than the structural bound (corrupt child pointer or a cycle?)"⟩

def badCount : IoError := ⟨.invalidData, "corrupt B-tree node: key count exceeds capacity"⟩

def badChildOffset : IoError := ⟨.invalidData, "corrupt B-tree child offset"⟩

def noChildren : IoError := ⟨.invalidData, "corrupt B-tree: internal node has no children"⟩

def emptyLeaf : IoError := ⟨.invalidData, "corrupt B-tree: empty leaf node"⟩

def mutatedMsg : IoError :=
  ⟨.invalidData, "BStackBTreeMap was mutated during iteration (its root changed); the iterator is invalidated"⟩

def keyVanished : IoError := ⟨.invalidData, "corrupt B-tree: key vanished mid-delete"⟩

/-- Stands for a panic: an index out of bounds, or an `unwrap` of `None`. -/
def panicked : IoError := ⟨.other, "panicked"⟩

/-- Stands for an overflow of the native stack, and for a descent that does not end. -/
def unbounded : IoError := ⟨.other, "stack overflow"⟩

/-! ### Nodes -/

/-- A key with the reference of its value. -/
abbrev Entry (ksize : Nat) : Type := Key ksize × UInt64

/-- A decoded node. The source keeps `keys` and `vals` in two vectors of one length. -/
structure BNode (ksize : Nat) where
  leaf : Bool
  entries : List (Entry ksize)
  children : List Nat
deriving DecidableEq, Repr

section Nodes

variable {ksize : Nat}

/-- A node in the buffer that `emit` fills, starting from zeros. -/
def buffer (nb : BNode ksize) : Mem :=
  let nkeys := Mem.zero.write NKEYS_OFF (leBytes 8 nb.entries.length)
  let counts := nkeys.write LEAF_OFF (leBytes 8 nb.leaf.toNat)
  let keys := counts.write KEYS_OFF (nb.entries.flatMap fun e => e.1.val)
  let vals := keys.write (valsOff ksize) (nb.entries.flatMap fun e => leBytes 8 e.2.toNat)
  vals.write (childrenOff ksize) (nb.children.flatMap (leBytes 8))

def image (nb : BNode ksize) : List UInt8 := (buffer nb).read 0 (nodeSize ksize)

def entryAt (m : Mem) (i : Nat) : Entry ksize :=
  (⟨m.read (KEYS_OFF + i * ksize) ksize, Mem.length_read ..⟩,
    UInt64.ofNat (m.word (valsOff ksize + i * 8)))

def decode (b : List UInt8) : Except IoError (BNode ksize) :=
  let m := Mem.zero.write 0 b
  let nkeys := m.word NKEYS_OFF
  if MAXKEYS < nkeys then .error badCount
  else
    let leaf := decide (m.word LEAF_OFF ≠ 0)
    .ok {
      leaf
      entries := (List.range nkeys).map (entryAt m)
      children :=
        if leaf then []
        else (List.range (nkeys + 1)).map fun i => m.word (childrenOff ksize + i * 8) }

def readNode (ksize k off : Nat) : Io (BNode ksize) := do
  let b ← getInto k off (nodeSize ksize)
  Prog.lift (decode b)

/-- The number of keys in the node at `off`. -/
def childNkeys (k off : Nat) : Io Nat :=
  if off + NKEYS_OFF < 2 ^ 64 then do
    let nkeys ← readU64 k (off + NKEYS_OFF)
    if MAXKEYS < nkeys then Prog.fail badCount else pure nkeys
  else Prog.fail badChildOffset

/-- The first index whose key is not before `target`, and whether its key is equal. -/
def search (cmp : Key ksize → Key ksize → Ordering) (target : Key ksize) :
    List (Entry ksize) → Nat × Bool
  | [] => (0, false)
  | e :: es =>
      match cmp target e.1 with
      | .lt => (0, false)
      | .eq => (0, true)
      | .gt => ((search cmp target es).1 + 1, (search cmp target es).2)

end Nodes

/-! ### Building -/

/-- What a mutation accumulates: the images of its new nodes, and the old nodes it replaces. -/
structure Build where
  writes : List (Nat × List UInt8)
  freed : List Nat
deriving DecidableEq, Repr

def Build.start : Build := ⟨[], []⟩

/-- Serialise a node and allocate a block for it. -/
def emitNode {ksize : Nat} (a : Allocator) (nb : BNode ksize) : Prog IoError (Build × World) Nat := do
  let block ← Prog.onSnd (alloc a (nodeSize ksize))
  Prog.onFst fun b => { b with writes := b.writes ++ [(block.start, image nb)] }
  pure block.start

/-- What the operations of a plan do. -/
def nodes (ksize : Nat) (a : Allocator) :
    Plan.Handlers IoError (Build × World) (BNode ksize) Nat where
  read off := Prog.onSnd (readNode ksize a.stack off)
  peek off := Prog.onSnd (childNkeys a.stack off)
  emit := emitNode a
  retire off := Prog.onFst fun b => { b with freed := b.freed ++ [off] }

/-- A plan over nodes. Its `peek` is `child_nkeys`. -/
abbrev NodePlan (ksize : Nat) (α : Type) : Type := Plan IoError (BNode ksize) Nat α

section Plans

variable {ksize : Nat}

def read (off : Nat) : NodePlan ksize (BNode ksize) := .read off .ret

def peek (off : Nat) : NodePlan ksize Nat := .peek off .ret

def emit (nb : BNode ksize) : NodePlan ksize Nat := .emit nb .ret

def retire (off : Nat) : NodePlan ksize Unit := .retire off (.ret ())

/-- The child of `nb` at `i`. -/
def childAt (nb : BNode ksize) (i : Nat) : NodePlan ksize Nat := .unwrap panicked nb.children[i]?

def entryOf (nb : BNode ksize) (i : Nat) : NodePlan ksize (Entry ksize) :=
  .unwrap panicked nb.entries[i]?

/-- Read a node that is going to be replaced. -/
def take (off : Nat) : NodePlan ksize (BNode ksize) := do
  let nb ← read off
  retire off
  pure nb

end Plans

/-! ### Insertion -/

section Insert

variable {ksize : Nat}

/-- A median lifted out of a split node, and the node to its right. -/
structure Split (ksize : Nat) where
  entry : Entry ksize
  right : Nat
deriving DecidableEq, Repr

/-- What `insert_rec` returns: the copy of the subtree, a lifted split, whether an entry was added, and
the value it replaced. -/
structure Inserted (ksize : Nat) where
  off : Nat
  split : Option (Split ksize)
  added : Bool
  old : Option UInt64
deriving DecidableEq, Repr

/-- The two halves of an over-full node. Its median lies between them. -/
def splitLeft (nb : BNode ksize) (m : Nat) : BNode ksize :=
  { nb with
    entries := nb.entries.take m
    children := if nb.leaf then nb.children else nb.children.take (m + 1) }

def splitRight (nb : BNode ksize) (m : Nat) : BNode ksize :=
  { nb with
    entries := nb.entries.drop (m + 1)
    children := if nb.leaf then [] else nb.children.drop (m + 1) }

/-- Emit a node, split around its median when it is over-full. -/
def emitSplit (nb : BNode ksize) (added : Bool) (old : Option UInt64) :
    NodePlan ksize (Inserted ksize) :=
  if nb.entries.length ≤ MAXKEYS then do
    let newOff ← emit nb
    pure ⟨newOff, none, added, old⟩
  else do
    let m := nb.entries.length / 2
    let median ← entryOf nb m
    let right ← emit (splitRight nb m)
    let leftOff ← emit (splitLeft nb m)
    pure ⟨leftOff, some ⟨median, right⟩, added, old⟩

/-- Put the copy of a child in its place, with the split it lifted. -/
def linkChild (nb : BNode ksize) (i newChild : Nat) : Option (Split ksize) → BNode ksize
  | none => { nb with children := nb.children.set i newChild }
  | some s =>
      { nb with
        entries := nb.entries.insertIdx i s.entry
        children := (nb.children.set i newChild).insertIdx (i + 1) s.right }

variable (cmp : Key ksize → Key ksize → Ordering)

/-- Copy the path of `key` below `off`, with the entry inserted. -/
def insertRec : Nat → Nat → Key ksize → UInt64 → NodePlan ksize (Inserted ksize)
  | 0, _, _, _ => .fail unbounded
  | depth + 1, off, key, val => do
      let nb ← take off
      let (i, exact) := search cmp key nb.entries
      if exact then do
        let old ← entryOf nb i
        let newOff ← emit { nb with entries := nb.entries.set i (old.1, val) }
        pure ⟨newOff, none, false, some old.2⟩
      else if nb.leaf then
        emitSplit { nb with entries := nb.entries.insertIdx i (key, val) } true none
      else do
        let child ← childAt nb i
        let below ← insertRec depth child key val
        emitSplit (linkChild nb i below.off below.split) below.added below.old

/-- The new root of an insertion, with `added` and `old`. -/
def insertPlan (depth root : Nat) (key : Key ksize) (val : UInt64) :
    NodePlan ksize (Nat × Bool × Option UInt64) :=
  if root = 0 then do
    let newRoot ← emit ⟨true, [(key, val)], []⟩
    pure (newRoot, true, none)
  else do
    let top ← insertRec cmp depth root key val
    match top.split with
    | none => pure (top.off, top.added, top.old)
    | some s => do
        let newRoot ← emit ⟨false, [s.entry], [top.off, s.right]⟩
        pure (newRoot, top.added, top.old)

end Insert

/-! ### Deletion -/

section Delete

variable {ksize : Nat}

/-- A recursive call of `delete_bnode`: the changed node, not yet emitted, and the removed value. -/
abbrev Deleter (ksize : Nat) : Type :=
  BNode ksize → Key ksize → NodePlan ksize (BNode ksize × Option UInt64)

/-- The rightmost entry below `off`. -/
def maxEntry : Nat → Nat → NodePlan ksize (Entry ksize)
  | 0, _ => .fail unbounded
  | depth + 1, off => do
      let nb ← read off
      if nb.leaf then .unwrap emptyLeaf nb.entries.getLast?
      else do
        let child ← .unwrap noChildren nb.children.getLast?
        maxEntry depth child

/-- The leftmost entry below `off`. -/
def minEntry : Nat → Nat → NodePlan ksize (Entry ksize)
  | 0, _ => .fail unbounded
  | depth + 1, off => do
      let nb ← read off
      if nb.leaf then .unwrap emptyLeaf nb.entries.head?
      else do
        let child ← .unwrap noChildren nb.children.head?
        minEntry depth child

/-- `l`, the separator and `r` in one node. -/
def mergeNodes (l : BNode ksize) (sep : Entry ksize) (r : BNode ksize) : BNode ksize :=
  { l with
    entries := l.entries ++ sep :: r.entries
    children := if l.leaf then l.children else l.children ++ r.children }

/-- Move the last entry of `ls` up, and the separator down to the front of `ci`. -/
def rotateRight (ls : BNode ksize) (sep : Entry ksize) (ci : BNode ksize) :
    Option (BNode ksize × Entry ksize × BNode ksize) := do
  let lent ← ls.entries.getLast?
  if ci.leaf then
    pure ({ ls with entries := ls.entries.dropLast }, lent, { ci with entries := sep :: ci.entries })
  else do
    let child ← ls.children.getLast?
    pure ({ ls with entries := ls.entries.dropLast, children := ls.children.dropLast }, lent,
      { ci with entries := sep :: ci.entries, children := child :: ci.children })

/-- Move the first entry of `rs` up, and the separator down to the end of `ci`. -/
def rotateLeft (ci : BNode ksize) (sep : Entry ksize) (rs : BNode ksize) :
    Option (BNode ksize × Entry ksize × BNode ksize) := do
  let lent ← rs.entries.head?
  if ci.leaf then
    pure ({ ci with entries := ci.entries ++ [sep] }, lent, { rs with entries := rs.entries.tail })
  else do
    let child ← rs.children.head?
    pure ({ ci with entries := ci.entries ++ [sep], children := ci.children ++ [child] }, lent,
      { rs with entries := rs.entries.tail, children := rs.children.tail })

section Cases

variable (del : Deleter ksize)

def deleteOff (off : Nat) (key : Key ksize) : NodePlan ksize (Nat × Option UInt64) := do
  let nb ← take off
  let (nb2, val) ← del nb key
  let newOff ← emit nb2
  pure (newOff, val)

/-- Merge the children `j` and `j + 1` around their separator and delete from the merged node. -/
def mergeAt (nb : BNode ksize) (j : Nat) (key : Key ksize) :
    NodePlan ksize (BNode ksize × Option UInt64) := do
  let lOff ← childAt nb j
  let rOff ← childAt nb (j + 1)
  let l ← take lOff
  let r ← take rOff
  let sep ← entryOf nb j
  let (l2, val) ← del (mergeNodes l sep r) key
  let newOff ← emit l2
  pure ({ nb with
    entries := nb.entries.eraseIdx j
    children := (nb.children.eraseIdx (j + 1)).set j newOff }, val)

def borrowLeft (nb : BNode ksize) (i : Nat) (key : Key ksize) :
    NodePlan ksize (BNode ksize × Option UInt64) := do
  let ciOff ← childAt nb i
  let lsOff ← childAt nb (i - 1)
  let ci ← take ciOff
  let ls ← take lsOff
  let sep ← entryOf nb (i - 1)
  let (ls', lent, ci') ← .unwrap panicked (rotateRight ls sep ci)
  let newLs ← emit ls'
  let (ci2, val) ← del ci' key
  let newCi ← emit ci2
  pure ({ nb with
    entries := nb.entries.set (i - 1) lent
    children := (nb.children.set (i - 1) newLs).set i newCi }, val)

def borrowRight (nb : BNode ksize) (i : Nat) (key : Key ksize) :
    NodePlan ksize (BNode ksize × Option UInt64) := do
  let ciOff ← childAt nb i
  let rsOff ← childAt nb (i + 1)
  let ci ← take ciOff
  let rs ← take rsOff
  let sep ← entryOf nb i
  let (ci', lent, rs') ← .unwrap panicked (rotateLeft ci sep rs)
  let newRs ← emit rs'
  let (ci2, val) ← del ci' key
  let newCi ← emit ci2
  pure ({ nb with
    entries := nb.entries.set i lent
    children := (nb.children.set (i + 1) newRs).set i newCi }, val)

/-- The key is at `i` in an internal node: put its predecessor or successor in its place, or merge its
two children around it. -/
def deleteInternal (depth : Nat) (nb : BNode ksize) (i : Nat) (key : Key ksize) :
    NodePlan ksize (BNode ksize × Option UInt64) := do
  let removed ← entryOf nb i
  let y ← childAt nb i
  let yc ← peek y
  let z ← childAt nb (i + 1)
  let zc ← peek z
  if T ≤ yc then do
    let p ← maxEntry depth y
    let (newY, _) ← deleteOff del y p.1
    pure ({ nb with entries := nb.entries.set i p, children := nb.children.set i newY },
      some removed.2)
  else if T ≤ zc then do
    let s ← minEntry depth z
    let (newZ, _) ← deleteOff del z s.1
    pure ({ nb with entries := nb.entries.set i s, children := nb.children.set (i + 1) newZ },
      some removed.2)
  else do
    let (nb2, _) ← mergeAt del nb i key
    pure (nb2, some removed.2)

/-- Whether there is a sibling at `j` with a key to lend. -/
def lends (nb : BNode ksize) (there : Prop) [Decidable there] (j : Nat) : NodePlan ksize Bool :=
  if there then do
    let sibling ← childAt nb j
    let count ← peek sibling
    pure (decide (T ≤ count))
  else pure false

/-- The child at `i` is minimal and its left sibling lends nothing: borrow from the right, or merge. -/
def deleteBeside (nb : BNode ksize) (i : Nat) (key : Key ksize) :
    NodePlan ksize (BNode ksize × Option UInt64) := do
  let right ← lends nb (i < nb.entries.length) (i + 1)
  if right then borrowRight del nb i key
  else if i < nb.entries.length then mergeAt del nb i key
  else mergeAt del nb (i - 1) key

/-- The key belongs below the child at `i`. Descend once that child has a key to spare. -/
def deleteBelow (nb : BNode ksize) (i : Nat) (key : Key ksize) :
    NodePlan ksize (BNode ksize × Option UInt64) := do
  let child ← childAt nb i
  let count ← peek child
  if T ≤ count then do
    let (newC, val) ← deleteOff del child key
    pure ({ nb with children := nb.children.set i newC }, val)
  else do
    let left ← lends nb (0 < i) (i - 1)
    if left then borrowLeft del nb i key else deleteBeside del nb i key

end Cases

variable (cmp : Key ksize → Key ksize → Ordering)

def deleteBnode : Nat → Deleter ksize
  | 0, _, _ => .fail unbounded
  | depth + 1, nb, key =>
      let (i, found) := search cmp key nb.entries
      if found then
        if nb.leaf then do
          let removed ← entryOf nb i
          pure ({ nb with entries := nb.entries.eraseIdx i }, some removed.2)
        else deleteInternal (deleteBnode depth) depth nb i key
      else if nb.leaf then pure (nb, none)
      else deleteBelow (deleteBnode depth) nb i key

/-- The new root of a deletion, and the removed value. -/
def removePlan (depth root : Nat) (key : Key ksize) : NodePlan ksize (Nat × UInt64) := do
  let nb ← take root
  let (rootNb, val) ← deleteBnode cmp depth nb key
  let val ← .unwrap keyVanished val
  if rootNb.entries.isEmpty then
    if rootNb.leaf then pure (0, val)
    else do
      let newRoot ← .unwrap noChildren rootNb.children.head?
      pure (newRoot, val)
  else do
    let newRoot ← emit rootNb
    pure (newRoot, val)

end Delete

/-! ### Lookups -/

section Lookups

variable {ksize : Nat} (cmp : Key ksize → Key ksize → Ordering)

/-- The loop of `get`, with `rest` levels left before the structural bound. -/
def getFrom : Nat → Nat → Key ksize → NodePlan ksize (Option UInt64)
  | 0, off, _ => if off = 0 then pure none else .fail depthExceeded
  | rest + 1, off, key =>
      if off = 0 then pure none
      else do
        let nb ← read off
        let (i, exact) := search cmp key nb.entries
        if exact then do
          let e ← entryOf nb i
          pure (some e.2)
        else if nb.leaf then pure none
        else do
          let child ← childAt nb i
          getFrom rest child key

/-- The loop of `extreme`. -/
def extremeFrom (leftmost : Bool) : Nat → Nat → NodePlan ksize (Entry ksize)
  | 0, _ => .fail depthExceeded
  | rest + 1, off => do
      let nb ← read off
      if nb.leaf then
        .unwrap panicked (if leftmost then nb.entries.head? else nb.entries.getLast?)
      else do
        let child ← childAt nb (if leftmost then 0 else nb.entries.length)
        extremeFrom leftmost rest child

/-- Visit the children of a node with its entries between them. -/
def interleave (visit : Nat → NodePlan ksize (List (Entry ksize))) :
    List Nat → List (Entry ksize) → NodePlan ksize (List (Entry ksize))
  | c :: cs, e :: es => do
      let before ← visit c
      let after ← interleave visit cs es
      pure (before ++ e :: after)
  | c :: _, [] => visit c
  | [], _ => .fail panicked

def collect : Nat → Nat → NodePlan ksize (List (Entry ksize))
  | 0, off => if off = 0 then pure [] else .fail depthExceeded
  | rest + 1, off =>
      if off = 0 then pure []
      else do
        let nb ← read off
        if nb.leaf then pure nb.entries
        else interleave (collect rest) nb.children nb.entries

/-- A frame of an iterator: a node, and the index of its next key. The subtree in front of that key is done. -/
abbrev Frame (ksize : Nat) : Type := BNode ksize × Nat

/-- The leftmost path from `off`, on top of `frames`. The source keeps the innermost frame last. -/
def descendLeft : Nat → Nat → List (Frame ksize) → NodePlan ksize (List (Frame ksize))
  | 0, off, frames => if off = 0 then pure frames else .fail depthExceeded
  | rest + 1, off, frames =>
      if off = 0 then pure frames
      else do
        let nb ← read off
        if nb.leaf then pure ((nb, 0) :: frames)
        else do
          let child ← childAt nb 0
          descendLeft rest child ((nb, 0) :: frames)

/-- The path to the first key that is not before `lo`. -/
def seek (lo : Key ksize) : Nat → Nat → List (Frame ksize) → NodePlan ksize (List (Frame ksize))
  | 0, off, frames => if off = 0 then pure frames else .fail depthExceeded
  | rest + 1, off, frames =>
      if off = 0 then pure frames
      else do
        let nb ← read off
        let (i, exact) := search cmp lo nb.entries
        if nb.leaf || exact then pure ((nb, i) :: frames)
        else do
          let child ← childAt nb i
          seek lo rest child ((nb, i) :: frames)

end Lookups

/-! ### The operations -/

section Operations

variable {ksize : Nat} (cmp : Key ksize → Key ksize → Ordering) (a : Allocator) (handle : Nat)

/-- Allocate an empty tree. `tag` is the type tag of its header. -/
def new (tag : UInt64) : Io Range := do
  let image := leBytes 8 TREE_SIZE ++ leBytes 8 tag.toNat ++ leBytes 8 0 ++ leBytes 8 0
  let block ← alloc a image.length
  let written ← Prog.attempt (set a.stack block.start image)
  match written with
  | .ok () => pure block
  | .error e => do
      let _ ← Prog.attempt (deallocRange a block)
      Prog.fail e

/-- `read_fields`: the root pointer and the entry count. -/
def readFields : Io (Nat × Nat) := do
  let buf ← getInto a.stack (handle + ROOT_OFF) 16
  pure (leNat (buf.take 8), leNat (buf.drop 8))

/-- Run a plan that only reads. -/
def query {α : Type} (plan : NodePlan ksize α) : Io α := do
  let (out, _) ← Prog.withFst Build.start (plan.run (nodes ksize a))
  Prog.lift out

def get (key : Key ksize) : Io (Option UInt64) := do
  let root ← readU64 a.stack (handle + ROOT_OFF)
  query a (getFrom cmp MAX_TREE_DEPTH root key)

def extreme (leftmost : Bool) : Io (Option (Entry ksize)) := do
  let root ← readU64 a.stack (handle + ROOT_OFF)
  if root = 0 then pure none
  else do
    let e ← query a (extremeFrom leftmost MAX_TREE_DEPTH root)
    pure (some e)

def first : Io (Option (Entry ksize)) := extreme a handle true

def last : Io (Option (Entry ksize)) := extreme a handle false

def toVec : Io (List (Entry ksize)) := do
  let root ← readU64 a.stack (handle + ROOT_OFF)
  query a (collect MAX_TREE_DEPTH root)

structure BTreeMapIter (ksize : Nat) where
  blockOff : Nat
  root0 : Nat
  len0 : Nat
  frames : List (Frame ksize)
  hi : Option (Key ksize)
deriving DecidableEq, Repr

def iter : Io (BTreeMapIter ksize) := do
  let (root, len) ← readFields a handle
  let frames ← query a (descendLeft MAX_TREE_DEPTH root [])
  pure ⟨handle, root, len, frames, none⟩

def range (lo hi : Key ksize) : Io (BTreeMapIter ksize) := do
  let (root, len) ← readFields a handle
  let frames ← query a (seek cmp lo MAX_TREE_DEPTH root [])
  pure ⟨handle, root, len, frames, some hi⟩

namespace BTreeMapIter

/-- Whether `key` lies past the bound of the iterator. -/
def past (it : BTreeMapIter ksize) (key : Key ksize) : Bool :=
  match it.hi with
  | none => false
  | some hi => cmp key hi == .gt

/-- The frames from the innermost one that has a key left. -/
def unfinished (frames : List (Frame ksize)) : List (Frame ksize) :=
  frames.dropWhile fun frame => decide (frame.1.entries.length ≤ frame.2)

/-- The check for a mutation, which an iterator at its end does not make. -/
def check (it : BTreeMapIter ksize) : Io Unit :=
  if it.frames.isEmpty then pure ()
  else do
    let fields ← readFields a it.blockOff
    if fields = (it.root0, it.len0) then pure () else Prog.fail mutatedMsg

/-- `next`. An error ends the iteration. -/
def next (it : BTreeMapIter ksize) : Io (Option (Entry ksize) × BTreeMapIter ksize) := do
  it.check a
  match unfinished it.frames with
  | [] => pure (none, { it with frames := [] })
  | (nb, i) :: outer => do
      let e ← Prog.lift (nb.entries[i]?.elim (.error panicked) .ok)
      if it.past cmp e.1 then pure (none, { it with frames := [] })
      else if nb.leaf then pure (some e, { it with frames := (nb, i + 1) :: outer })
      else do
        let child ← Prog.lift (nb.children[i + 1]?.elim (.error panicked) .ok)
        let frames ← query a (descendLeft MAX_TREE_DEPTH child ((nb, i + 1) :: outer))
        pure (some e, { it with frames })

/-- Call `next` until it says that nothing is left, at most `calls` times. -/
def drain : Nat → BTreeMapIter ksize → Io (List (Entry ksize))
  | 0, _ => pure []
  | calls + 1, it => do
      let (item, it') ← it.next cmp a
      match item with
      | none => pure []
      | some e => do
          let rest ← drain calls it'
          pure (e :: rest)

end BTreeMapIter

/-- Run a plan and commit its nodes with the header fields it changes. The offsets it returns are to be
freed: the nodes the commit replaced, or the new nodes when nothing was committed. -/
def commit {β : Type} (plan : NodePlan ksize β) (fields : β → List (Nat × List UInt8)) :
    Io (Except IoError β × List Nat) := do
  let (built, build) ← Prog.withFst Build.start (plan.run (nodes ksize a))
  match built with
  | .ok b => do
      let committed ← Prog.attempt (setBatched a.stack (build.writes ++ fields b))
      match committed with
      | .ok () => pure (.ok b, build.freed)
      | .error e => pure (.error e, build.writes.map Prod.fst)
  | .error e => pure (.error e, build.writes.map Prod.fst)

/-- Free the nodes at `offs`. The source discards the errors. -/
def freeNodes (size : Nat) (offs : List Nat) : Io Unit :=
  Prog.forEach (fun off => do
    let _ ← Prog.attempt (deallocRange a ⟨off, size⟩)
    pure ()) offs

/-- `insert` up to its commit point. -/
def insertCommit (depth : Nat) (key : Key ksize) (val : UInt64) :
    Io (Except IoError (Option UInt64) × List Nat) := do
  let (root, len) ← readFields a handle
  let (built, offs) ← commit a (insertPlan cmp depth root key val) fun b =>
    (handle + ROOT_OFF, leBytes 8 b.1) :: if b.2.1 then [(handle + LEN_OFF, leBytes 8 (len + 1))] else []
  pure (built.map fun b => b.2.2, offs)

/-- `remove` up to its commit point. -/
def removeCommit (depth : Nat) (key : Key ksize) :
    Io (Except IoError (Option UInt64) × List Nat) := do
  let (root, len) ← readFields a handle
  if root = 0 then pure (.ok none, [])
  else do
    let there ← get cmp a handle key
    if there.isNone then pure (.ok none, [])
    else do
      let (built, offs) ← commit a (removePlan cmp depth root key) fun b =>
        [(handle + ROOT_OFF, leBytes 8 b.1), (handle + LEN_OFF, leBytes 8 ((len + (2 ^ 64 - 1)) % 2 ^ 64))]
      pure (built.map fun b => some b.2, offs)

end Operations

/-- A mutation of the map. -/
inductive TreeOp (ksize : Nat)
  | insert (key : Key ksize) (val : UInt64)
  | remove (key : Key ksize)
deriving DecidableEq, Repr

namespace TreeOp

variable {ksize : Nat} (cmp : Key ksize → Key ksize → Ordering) (a : Allocator) (handle depth : Nat)

def key : TreeOp ksize → Key ksize
  | insert key _ => key
  | remove key => key

def commit : TreeOp ksize → Io (Except IoError (Option UInt64) × List Nat)
  | insert key val => insertCommit cmp a handle depth key val
  | remove key => removeCommit cmp a handle depth key

/-- The whole mutation: commit, free, and return the value that was there. -/
def run (op : TreeOp ksize) : Io (Option UInt64) := do
  let (out, offs) ← op.commit cmp a handle depth
  freeNodes a (nodeSize ksize) offs
  Prog.lift out

end TreeOp

end BStackBTreeMap

end BStackRaii
