import BStackRaii.Model.Rc
import BStackRaii.Model.Wal
import BStackRaii.Model.LinkedList
/-!
# Recursive teardown

`io_core/teardown.rs`, the drop cores of `types/compiled/owned.rs` and `types/compiled/rc.rs`, and the
`__bstack_drop_children` that the macros generate from the fields of a type. The two thread-locals are
explicit: the sink goes along with the state, and the depth is a parameter, since its guard gives every level
back on exit. `fuel` is the native stack: one unit for each drop core on it.

Cross-file children and the vectors of blocks are left out.
-/

namespace BStackRaii

/-- Offset of the inline counter of a `#[bstack_block(rc)]` block. -/
def RC_REFCOUNT_OFFSET : Nat := HEADER_SIZE

/-- Offset of the control block pointer of a `#[bstack_block(rc, weak)]` block. -/
def CTRL_BACKPTR_OFFSET : Nat := HEADER_SIZE

/-- `TEARDOWN_SINK`: the stack of the allocator that installed it, and the frees collected so far. -/
abbrev Sink : Type := Option (Nat × List (Nat × Range))

/-- Code of a teardown, on the sink of its thread. -/
abbrev Teardown (α : Type) : Type := StateT Sink Io α

/-! ### The types of blocks -/

/-- The `mode` of a block type: how its blocks are shared. -/
inductive Mode
  | plain
  | rc
  | rcWeak
deriving DecidableEq, Repr

/-- What one field contributes to `__bstack_drop_children`. An array field is one of these for each
element. -/
inductive DropStmt (τ : Type)
  | owned (field : Nat) (child : τ)
  | strong (field : Nat) (child : τ)
  | weak (field : Nat)
  | embed (field : Nat) (child : τ)
  | vec (field : Nat) (nullable : Bool)
deriving DecidableEq, Repr

/-- The arm of an enum variant. `nothing` is a variant that owns nothing. -/
inductive DropArm (τ : Type)
  | owned (child : τ)
  | strong (child : τ)
  | weak
  | embed (child : τ)
  | nothing
deriving DecidableEq, Repr

/-- Where a type's `__bstack_drop_children` comes from: the fields of a struct, the variants of an enum
whose discriminant has `width` bytes at `disc`, or the list of blocks of type `value`. -/
inductive Body (τ : Type)
  | struct (stmts : List (DropStmt τ))
  | enum (disc width payload : Nat) (arms : List (Nat × DropArm τ))
  | list (value : τ)
deriving Repr

/-- A block type: `size_of` of its `OnDisk` form, its mode and its body. -/
structure BlockType (τ : Type) where
  size : Nat
  mode : Mode
  body : Body τ
deriving Repr

/-- The drop cores that teardown code mints, with the offsets they were minted from. `element` is the
`BStackOwned` of a collection's value, and `data` a range handed to `dealloc_range` as it is. -/
inductive Token (τ : Type)
  | owned (child : τ) (off : Nat)
  | element (child : τ) (off : Nat)
  | strong (child : τ) (off : Nat)
  | weak (ctrl : Nat)
  | embed (child : τ) (off : Nat)
  | data (range : Range)
deriving DecidableEq, Repr

/-- A `__bstack_drop_children` taken apart into its reads and the tokens it drops. -/
inductive Walk (τ : Type)
  | done (out : Except IoError Unit)
  | read (off n : Nat) (rest : List UInt8 → Walk τ)
  | drop (token : Token τ) (rest : Walk τ)

/-! ### Generated teardown -/

/-- The `u64` at `field` of an image. -/
def fieldWord (image : List UInt8) (field : Nat) : Nat := leNat ((image.drop field).take 8)

section Generated

variable {τ : Type}

namespace Walk

/-- Drop the token of a scalar field, unless its offset is null. -/
def child (off : Nat) (token : Nat → Token τ) (rest : Walk τ) : Walk τ :=
  if off ≠ 0 then .drop (token off) rest else rest

/-- Tear down the child embedded at `field` of the block at `start`. -/
def embedded (start field : Nat) (t : τ) (rest : Walk τ) : Walk τ :=
  match checkedOff start field with
  | .ok off => .drop (.embed t off) rest
  | .error e => .done (.error e)

end Walk

/-- One statement, in front of the rest. -/
def DropStmt.emit (start : Nat) (image : List UInt8) (rest : Walk τ) : DropStmt τ → Walk τ
  | owned field t => Walk.child (fieldWord image field) (.owned t) rest
  | strong field t => Walk.child (fieldWord image field) (.strong t) rest
  | weak field => Walk.child (fieldWord image field) .weak rest
  | embed field t => Walk.embedded start field t rest
  | vec field nullable =>
      if nullable ∧ fieldWord image field = 0 then rest
      else .drop (.data ⟨fieldWord image field, fieldWord image (field + 8)⟩) rest

def structChildren (size start : Nat) (stmts : List (DropStmt τ)) : Walk τ :=
  .read start size fun image => stmts.foldr (fun s rest => s.emit start image rest) (.done (.ok ()))

def invalidDiscriminant : IoError := ⟨.invalidData, "bstack_enum: invalid discriminant"⟩

/-- One arm. Unlike a field, a variant's offset is not checked for null. -/
def DropArm.emit (start payload : Nat) (image : List UInt8) : DropArm τ → Walk τ
  | owned t => .drop (.owned t (fieldWord image payload)) (.done (.ok ()))
  | strong t => .drop (.strong t (fieldWord image payload)) (.done (.ok ()))
  | weak => .drop (.weak (fieldWord image payload)) (.done (.ok ()))
  | embed t => Walk.embedded start payload t (.done (.ok ()))
  | nothing => .done (.ok ())

/-- The discriminant of an enum's image. -/
def discriminant (image : List UInt8) (disc width : Nat) : Nat := leNat ((image.drop disc).take width)

/-- An enum none of whose variants owns anything has an empty body. -/
def enumChildren [DecidableEq τ] (size start disc width payload : Nat) (arms : List (Nat × DropArm τ)) :
    Walk τ :=
  if ∀ arm ∈ arms, arm.2 = .nothing then .done (.ok ())
  else .read start size fun image =>
    match arms.lookup (discriminant image disc width) with
    | some arm => arm.emit start payload image
    | none => .done (.error invalidDiscriminant)

/-- The loop of the list's teardown at the node `cur`. -/
def nodeChildren (value : τ) : Nat → Nat → Walk τ
  | 0, cur => if cur = 0 then .done (.ok ()) else .done (.error BStackLinkedList.chainTooLong)
  | remaining + 1, cur =>
      if cur = 0 then .done (.ok ())
      else match checkedOff cur BStackLinkedList.NNEXT_OFF, checkedOff cur BStackLinkedList.NVAL_OFF with
        | .ok nextOff, .ok valOff => .read nextOff 8 fun next => .read valOff 8 fun val =>
            Walk.child (leNat val) (.element value)
              (.drop (.data ⟨cur, BStackLinkedList.NODE_SIZE⟩) (nodeChildren value remaining (leNat next)))
        | .error e, _ => .done (.error e)
        | .ok nextOff, .error e => .read nextOff 8 fun _ => .done (.error e)

def listChildren (value : τ) (start : Nat) : Walk τ :=
  .read (start + BStackLinkedList.HEAD_OFF) 8 fun head =>
    .read (start + BStackLinkedList.LEN_OFF) 8 fun len => nodeChildren value (leNat len) (leNat head)

/-- `__bstack_drop_children` of the block at `start`. -/
def BlockType.dropChildren [DecidableEq τ] (T : BlockType τ) (start : Nat) : Walk τ :=
  match T.body with
  | .struct stmts => structChildren T.size start stmts
  | .enum disc width payload arms => enumChildren T.size start disc width payload arms
  | .list value => listChildren value start

end Generated

/-! ### The sink and the depth bound -/

/-- `Sink::collect`: the sink with `range` added, if it belongs to the file that installed the sink. -/
def Sink.collect (a : Allocator) (range : Range) : Sink → Option Sink
  | some (installer, slices) =>
      if a.walFileId ≠ FileId.SELF ∨ a.stack = installer then
        some (some (installer, slices ++ [(a.walFileId, range)]))
      else none
  | none => none

/-- `dealloc_range`: collect the range, or free it at once. -/
def Sink.dealloc (a : Allocator) (range : Range) : Teardown Unit := fun sink =>
  match Sink.collect a range sink with
  | some sink' => pure ((), sink')
  | none => do
      deallocRange a range
      pure ((), sink)

def MAX_TEARDOWN_DEPTH : Nat := 500

def teardownTooDeep : IoError :=
  ⟨.invalidData, "teardown recursion too deep (an owned-reference cycle?)"⟩

/-- `TeardownDepthGuard::enter` at `depth`. -/
def TeardownDepthGuard.enter (depth : Nat) : Except IoError Nat :=
  if depth + 1 > MAX_TEARDOWN_DEPTH then .error teardownTooDeep else .ok (depth + 1)

/-- Tear a subtree down as one batch of frees, inside of the batch that is under way if there is one. -/
def walTeardown (a : Allocator) (handle : Teardown Unit) : Teardown Unit := fun sink =>
  match sink, a.walAnchor with
  | some _, _ => handle sink
  | none, none => handle none
  | none, some _ => do
      let res ← handle (some (a.stack, []))
      commitFrees a (res.2.elim [] Prod.snd)
      pure ((), none)

/-! ### The drop cores -/

section Cores

variable {τ : Type} [DecidableEq τ] (types : τ → BlockType τ) (a : Allocator)

/-- Make the reads of a walk, and drop its tokens by `child`. -/
def Walk.run (child : Token τ → Teardown Unit) : Walk τ → Teardown Unit
  | .done out => (Prog.lift out : Io Unit)
  | .read off n rest => do
      let bytes ← (getInto a.stack off n : Io (List UInt8))
      (rest bytes).run child
  | .drop token rest => do
      child token
      rest.run child

namespace Teardown

/-- `drop_block`: the children, then the shell. -/
def dropBlock (child : Token τ → Teardown Unit) (t : τ) (off : Nat) : Teardown Unit := do
  ((types t).dropChildren off).run a child
  Sink.dealloc a ⟨off, (types t).size⟩

/-- `refcount::fetch_sub` of one. -/
def fetchSub (off : Nat) : Io Nat := (Refcount.fetchSub a.stack off 1).run

def releaseWeak (ctrl : Nat) : Teardown Unit := do
  let weakOff ← (Prog.lift (counterOff ctrl CTRL_WEAK_OFFSET) : Io Nat)
  let prev ← fetchSub a weakOff
  if prev = 1 then Sink.dealloc a ⟨ctrl, CONTROL_SIZE⟩ else pure ()

/-- `OwnedRef::bstack_drop`. `child` drops the tokens one level further down. -/
def dropOwned (child : Nat → Token τ → Teardown Unit) (depth : Nat) (t : τ) (off : Nat) :
    Teardown Unit := do
  let depth' ← (Prog.lift (TeardownDepthGuard.enter depth) : Io Nat)
  dropBlock types a (child depth') t off

/-- `StrongRef::bstack_drop`. -/
def dropStrong (child : Nat → Token τ → Teardown Unit) (depth : Nat) (t : τ) (off : Nat) :
    Teardown Unit := do
  let depth' ← (Prog.lift (TeardownDepthGuard.enter depth) : Io Nat)
  let countOff ← (Prog.lift (counterOff off RC_REFCOUNT_OFFSET) : Io Nat)
  let prev ← fetchSub a countOff
  if prev = 1 then dropBlock types a (child depth') t off else pure ()

def strongReleaseCtrl (child : Nat → Token τ → Teardown Unit) (depth : Nat) (t : τ) (off ctrl : Nat) :
    Teardown Unit := do
  let depth' ← (Prog.lift (TeardownDepthGuard.enter depth) : Io Nat)
  let strongOff ← (Prog.lift (counterOff ctrl CTRL_STRONG_OFFSET) : Io Nat)
  let prev ← fetchSub a strongOff
  if prev = 1 then do
    dropBlock types a (child depth') t off
    releaseWeak a ctrl
  else pure ()

/-- `WeakRef::resolve_ctrl`. -/
def resolveCtrl (off : Nat) : Io Nat := do
  let pos ← Prog.lift (checkedOff off CTRL_BACKPTR_OFFSET)
  readU64 a.stack pos

/-- `StrongWeakRef::from_disk`, and its drop. -/
def dropStrongWeak (child : Nat → Token τ → Teardown Unit) (depth : Nat) (t : τ) (off : Nat) :
    Teardown Unit := do
  let ctrl ← resolveCtrl a off
  strongReleaseCtrl types a child depth t off ctrl

/-- `BStackShared::drop_strong_ref`. A plain type has none. -/
def dropStrongRef (child : Nat → Token τ → Teardown Unit) (depth : Nat) (t : τ) (off : Nat) :
    Teardown Unit :=
  match (types t).mode with
  | .rcWeak => dropStrongWeak types a child depth t off
  | _ => dropStrong types a child depth t off

/-- The native stack is exhausted: the process aborts. -/
def stackOverflow : IoError := ⟨.other, "stack overflow"⟩

/-- Drop one token at `depth`. -/
def dropToken : Nat → Nat → Token τ → Teardown Unit
  | 0, _, _ => (Prog.fail stackOverflow : Io Unit)
  | fuel + 1, depth, .owned t off => dropOwned types a (dropToken fuel) depth t off
  | fuel + 1, depth, .element t off => walTeardown a (dropBlock types a (dropToken fuel depth) t off)
  | fuel + 1, depth, .strong t off => dropStrongRef types a (dropToken fuel) depth t off
  | _ + 1, _, .weak ctrl => releaseWeak a ctrl
  | fuel + 1, depth, .embed t off => ((types t).dropChildren off).run a (dropToken fuel depth)
  | _ + 1, _, .data range => Sink.dealloc a range

/-- `wal_teardown` of the shell of the block at `off`, as `BStackOwned::bstack_drop` calls it. -/
def bstackDrop (fuel : Nat) (t : τ) (off : Nat) : Io Unit := do
  let _ ← walTeardown a (dropBlock types a (dropToken types a fuel 0) t off) none
  pure ()

end Teardown

end Cores

end BStackRaii
