import BStackRaii.Model.Read
import BStackRaii.Model.Teardown
/-!
# What the generated walks do to the slots of a block

The teardown and the deep clone that the macros generate (`derive/src/emit.rs`, `derive/src/block.rs` and
`derive/src/enum_.rs`, over `types/compiled/vec.rs`), for the fields of a struct and the variants of an enum.
A walk is the list of what the code does with the offsets it reads, up to the first thing that fails of itself:
a read, a vector that cannot be read, a file that is not attached. Whatever it calls there may fail as well, and
then the walk is cut short after that call.

What a walk calls is one entry of its list, so that a tree of blocks is a walk of every block of it. The pass
of a clone that only measures is left out: it does less.
-/

namespace BStackRaii

namespace SlotWalk

/-- What is done at an offset. `owned` and `element` tear down the block there, with and without the depth
bound, and `copy` clones it. `strong` and `weak` give a reference back, to the block and to the control block
there, and the bumps take one. `range` frees or copies the bytes there. -/
inductive Action
  | owned (tag : EightCC)
  | element (tag : EightCC)
  | copy (tag : EightCC)
  | strong (tag : EightCC)
  | weak
  | bumpStrong (tag : EightCC)
  | bumpWeak
  | range
deriving DecidableEq

/-- The type of the block that an action walks. The last owner's release of a strong reference does. -/
def Action.target : Action → Option EightCC
  | owned tag => some tag
  | element tag => some tag
  | copy tag => some tag
  | strong tag => some tag
  | _ => none

/-- An action in the file with the id `file`, which is 0 for the file of the walk. -/
structure Touch where
  file : Nat
  action : Action
  off : Nat
deriving DecidableEq

/-- `inplace` walks a block that is stored inside of this one. -/
inductive Event
  | touch (t : Touch)
  | inplace (tag : EightCC) (pos : Nat)
deriving DecidableEq

/-- What a walk has done, and how it ended. -/
structure Trail where
  events : List Event
  out : Except IoError Unit

namespace Trail

def done : Trail := ⟨[], .ok ()⟩

def fail (e : IoError) : Trail := ⟨[], .error e⟩

def event (e : Event) : Trail := ⟨[e], .ok ()⟩

/-- An action in the file of the walk. -/
def touch (action : Action) (off : Nat) : Trail := event (.touch ⟨0, action, off⟩)

def andThen (a b : Trail) : Trail :=
  match a.out with
  | .ok () => ⟨a.events ++ b.events, b.out⟩
  | .error _ => a

/-- A loop. -/
def each {β : Type} (f : β → Trail) : List β → Trail
  | [] => done
  | x :: xs => (f x).andThen (each f xs)

def reading {β : Type} (r : Except IoError β) (k : β → Trail) : Trail :=
  match r with
  | .ok x => k x
  | .error e => fail e

end Trail

/-! ### Types -/

/-- What a field or a variant holds. Of a type with a `kind`, the slots are references to blocks of type
`tag`; arrays are flat; `nullable` is an `Option`. A `none` in a tuple is bytes of that width, and a `none`
in an array of vectors is a vector of bytes. -/
inductive Part
  | pod (width : Nat)
  | block (kind : OwnershipKind) (tag : EightCC) (nullable : Bool)
  | embed (tag : EightCC)
  | foreign (kind : OwnershipKind) (tag : EightCC) (nullable : Bool)
  | blockArray (n : Nat) (kind : OwnershipKind) (tag : EightCC) (nullable : Bool)
  | embedArray (n : Nat) (tag : EightCC)
  | foreignArray (n : Nat) (kind : OwnershipKind) (tag : EightCC) (nullable : Bool)
  | foreignTuple (kind : OwnershipKind) (items : List (Nat × Option EightCC))
  | podVec (nullable : Bool)
  | blockVec (kind : OwnershipKind) (tag : EightCC) (nullable : Bool)
  | blockArrayVec (kind : OwnershipKind) (tag : EightCC) (nullable : Bool)
  | foreignVec (kind : OwnershipKind) (tag : EightCC) (nullable : Bool)
  | vecArray (n : Nat) (elem : Option (OwnershipKind × EightCC)) (nullable : Bool)
deriving DecidableEq

/-- The fields of a struct with their offsets, or the variants of an enum with their discriminants. A variant
that holds nothing is a `pod`. -/
inductive Contents
  | struct (fields : List (Nat × Part))
  | enum (disc width payload : Nat) (variants : List (Nat × Part))

/-- A type: the size of its `OnDisk` form, its mode, and what it holds. -/
structure GenType where
  size : Nat
  mode : Mode
  contents : Contents

/-! ### The file -/

/-- What a walk reads: the file, the ids that a host is attached under, the sizes of the types, and the bytes
of the elements of a vector (`BStackByteVec::read_bytes`, of another crate). -/
structure Surroundings where
  data : List UInt8
  attached : Nat → Bool
  sizeOf : EightCC → Nat
  elements : Range → Except IoError (List UInt8)

/-- `slice::chunks_exact`. -/
def chunksExact (n : Nat) (bytes : List UInt8) : List (List UInt8) :=
  (List.range (bytes.length / n)).map fun i => (bytes.drop (i * n)).take n

/-- The `VecDesc` at `field` of an image. -/
def vecDesc (image : List UInt8) (field : Nat) : Range := ⟨fieldWord image field, fieldWord image (field + 8)⟩

/-- The `WidePtr` at `field` of an image. -/
def widePtr (image : List UInt8) (field : Nat) : WidePtr := WidePtr.decode ((image.drop field).take 16)

namespace Surroundings

variable (s : Surroundings)

/-- `BStackRef::read_on_disk`. -/
def readOnDisk (start size : Nat) : Except IoError (List UInt8) :=
  if start + size ≤ s.data.length then .ok ((s.data.drop start).take size) else .error outOfBounds

/-- `to_vec` of a vector of offsets. -/
def toVec (desc : Range) : Except IoError (List Nat) :=
  (s.elements desc).map fun bytes => (chunksExact 8 bytes).map leNat

/-- `to_vec` of a vector of wide pointers. -/
def toPtrs (desc : Range) : Except IoError (List WidePtr) :=
  (s.elements desc).map fun bytes => (chunksExact 16 bytes).map WidePtr.decode

end Surroundings

open Trail

variable (s : Surroundings)

/-! ### Teardown of references -/

/-- `child_range_stmt`: the guard on the offset does not depend on `nullable`. -/
def childRangeStmt (body : Action) (off : Nat) : Trail := if off ≠ 0 then touch body off else done

def weakDropStmt (off : Nat) : Trail := if off ≠ 0 then touch .weak off else done

/-- The teardown of a reference that is not null. -/
def teardownRef (kind : OwnershipKind) (tag : EightCC) (off : Nat) : Trail :=
  match kind with
  | .owned => touch (.owned tag) off
  | .strong => touch (.strong tag) off
  | .weak => touch .weak off
  | .ref => done

def scalarFieldDrop (kind : OwnershipKind) (tag : EightCC) (off : Nat) : Trail :=
  match kind with
  | .owned => childRangeStmt (.owned tag) off
  | .strong => childRangeStmt (.strong tag) off
  | .weak => weakDropStmt off
  | .ref => done

/-- The target of a wide pointer, in its own file, and whatever is done in a file that is not attached. -/
def inFile (fp : WidePtr) (action : Action) (detached : Trail) : Trail :=
  if fp.file = 0 then touch action fp.offset
  else if s.attached fp.file then event (.touch ⟨fp.file, action, fp.offset⟩)
  else detached

/-- The target of a file that is not attached leaks. -/
def foreignElemDrop (kind : OwnershipKind) (tag : EightCC) (fp : WidePtr) : Trail :=
  if fp.offset ≠ 0 then
    match kind with
    | .owned => inFile s fp (.owned tag) done
    | .strong => inFile s fp (.strong tag) done
    | .weak => inFile s fp .weak done
    | .ref => done
  else done

/-! ### Deep clone of references -/

/-- The clone of a reference that is not null. `bump_strong` and `bump_weak` change a counter once the walk is
over. -/
def cloneRef (kind : OwnershipKind) (tag : EightCC) (off : Nat) : Trail :=
  match kind with
  | .owned => touch (.copy tag) off
  | .strong => touch (.bumpStrong tag) off
  | .weak => touch .bumpWeak off
  | .ref => done

def cloneFieldStmt (kind : OwnershipKind) (tag : EightCC) (off : Nat) : Trail :=
  match kind with
  | .owned => if off ≠ 0 then touch (.copy tag) off else done
  | .strong => if off ≠ 0 then touch (.bumpStrong tag) off else done
  | .weak => if off ≠ 0 then touch .bumpWeak off else done
  | .ref => done

def notAttached (ann : String) : IoError :=
  ⟨.notFound, "cannot clone `" ++ ann ++ " Foreign<T>` element: target file not attached"⟩

def foreignElemClone (kind : OwnershipKind) (tag : EightCC) (fp : WidePtr) : Trail :=
  match kind with
  | .owned => if fp.offset = 0 then done else inFile s fp (.copy tag) (fail (notAttached "#[bstack_owned]"))
  | .strong =>
      if fp.offset ≠ 0 then inFile s fp (.bumpStrong tag) (fail (notAttached "#[bstack_strong]")) else done
  | .weak => if fp.offset ≠ 0 then inFile s fp .bumpWeak (fail (notAttached "#[bstack_weak]")) else done
  | .ref => done

/-! ### Vectors -/

/-- `BStackVec::bstack_drop`. -/
def podVecDrop (desc : Range) : Trail := touch .range desc.start

/-- Release each element, whether it is null or not, then free the array. -/
def elementsDrop (release : Nat → Trail) (desc : Range) : Trail :=
  reading (s.toVec desc) fun offs => (each release offs).andThen (podVecDrop desc)

/-- `BStackBlockVec::bstack_drop` calls `drop_block`. -/
def blockVecDrop (tag : EightCC) (desc : Range) : Trail := elementsDrop s (touch (.element tag)) desc

def strongVecDrop (tag : EightCC) (desc : Range) : Trail := elementsDrop s (touch (.strong tag)) desc

def weakVecDrop (desc : Range) : Trail := elementsDrop s (touch .weak) desc

def refVecDrop (desc : Range) : Trail := podVecDrop desc

/-- `bstack_drop` of the vector that a `kind` names. -/
def vecDrop (kind : OwnershipKind) (tag : EightCC) (desc : Range) : Trail :=
  match kind with
  | .owned => blockVecDrop s tag desc
  | .strong => strongVecDrop s tag desc
  | .weak => weakVecDrop s desc
  | .ref => refVecDrop desc

/-- `clone_data_into`: read the elements, and copy them into a new block. -/
def cloneDataInto (desc : Range) : Trail := reading (s.elements desc) fun _ => touch .range desc.start

/-- Clone each element, whether it is null or not, and build a new array of them. -/
def elementsClone (clone : Nat → Trail) (desc : Range) : Trail :=
  reading (s.toVec desc) fun offs => (each clone offs).andThen (touch .range desc.start)

/-- The `clone_into` of the vector that a `kind` names. -/
def vecClone (kind : OwnershipKind) (tag : EightCC) (desc : Range) : Trail :=
  elementsClone s (cloneRef kind tag) desc

/-! ### The fields of a struct -/

def vecDropStmt (nullable : Bool) (desc : Range) : Trail :=
  if nullable then (if desc.start ≠ 0 then podVecDrop desc else done) else podVecDrop desc

def blockVecDropStmt (kind : OwnershipKind) (tag : EightCC) (nullable : Bool) (desc : Range) : Trail :=
  if nullable then (if desc.start ≠ 0 then vecDrop s kind tag desc else done) else vecDrop s kind tag desc

/-- `vec_clone_stmt` does not depend on `nullable`. The elements of no `kind` are bytes. -/
def vecCloneStmt (elem : Option (OwnershipKind × EightCC)) (desc : Range) : Trail :=
  if desc.start ≠ 0 then
    match elem with
    | none => cloneDataInto s desc
    | some (kind, tag) => vecClone s kind tag desc
  else done

/-- One slot of an array of vectors. -/
def vecSlotDrop (elem : Option (OwnershipKind × EightCC)) (desc : Range) : Trail :=
  if desc.start ≠ 0 then
    match elem with
    | none => podVecDrop desc
    | some (kind, tag) => vecDrop s kind tag desc
  else done

/-- The slots of an array: `f` of each word that is not null. -/
def eachWord (image : List UInt8) (field n : Nat) (f : Nat → Trail) : Trail :=
  each (fun k => if fieldWord image (field + k * 8) ≠ 0 then f (fieldWord image (field + k * 8)) else done)
    (List.range n)

def eachPtr (image : List UInt8) (field n : Nat) (f : WidePtr → Trail) : Trail :=
  each (fun k => f (widePtr image (field + k * 16))) (List.range n)

/-- The wide pointers of a tuple, each at the end of what comes before it. -/
def eachItem (image : List UInt8) (f : EightCC → WidePtr → Trail) : Nat → List (Nat × Option EightCC) → Trail
  | _, [] => done
  | field, (width, none) :: items => eachItem image f (field + width) items
  | field, (width, some tag) :: items =>
      (f tag (widePtr image field)).andThen (eachItem image f (field + width) items)

/-- The blocks that are stored inside of this one. -/
def eachEmbed (base n : Nat) (tag : EightCC) : Trail :=
  each (fun k => event (.inplace tag (base + k * s.sizeOf tag))) (List.range n)

/-- The elements of a flat vector of arrays: `f` of each word that is not null. -/
def eachElement (desc : Range) (f : Nat → Trail) : Trail :=
  reading (s.toVec desc) (each fun off => if off ≠ 0 then f off else done)

/-- The teardown of a field at `field` of the image of the block at `start`. -/
def Part.fieldDrop (start : Nat) (image : List UInt8) (field : Nat) : Part → Trail
  | pod _ => done
  | block kind tag _ => scalarFieldDrop kind tag (fieldWord image field)
  | embed tag => reading (checkedOff start field) fun pos => event (.inplace tag pos)
  | foreign kind tag _ => foreignElemDrop s kind tag (widePtr image field)
  | blockArray n kind tag _ => eachWord image field n (teardownRef kind tag)
  | embedArray n tag => reading (checkedOff start field) fun pos => eachEmbed s pos n tag
  | foreignArray n kind tag _ => eachPtr image field n (foreignElemDrop s kind tag)
  | foreignTuple kind items => eachItem image (foreignElemDrop s kind) field items
  | podVec nullable => vecDropStmt nullable (vecDesc image field)
  | blockVec kind tag nullable => blockVecDropStmt s kind tag nullable (vecDesc image field)
  | blockArrayVec kind tag _ =>
      if (vecDesc image field).start ≠ 0 then
        match kind with
        | .ref => podVecDrop (vecDesc image field)
        | kind => (eachElement s (vecDesc image field) (teardownRef kind tag)).andThen
            (podVecDrop (vecDesc image field))
      else done
  | foreignVec kind tag _ =>
      if (vecDesc image field).start ≠ 0 then
        match kind with
        | .ref => podVecDrop (vecDesc image field)
        | kind => (reading (s.toPtrs (vecDesc image field)) (each (foreignElemDrop s kind tag))).andThen
            (podVecDrop (vecDesc image field))
      else done
  | vecArray n elem _ => each (fun k => vecSlotDrop s elem (vecDesc image (field + k * 16))) (List.range n)

/-- The deep clone of a field at `field` of the image of the block at `start`. -/
def Part.fieldClone (start : Nat) (image : List UInt8) (field : Nat) : Part → Trail
  | pod _ => done
  | block kind tag _ => cloneFieldStmt kind tag (fieldWord image field)
  | embed tag => reading (checkedOff start field) fun pos => event (.inplace tag pos)
  | foreign kind tag _ => foreignElemClone s kind tag (widePtr image field)
  | blockArray n kind tag _ => eachWord image field n (cloneRef kind tag)
  | embedArray n tag => reading (checkedOff start field) fun pos => eachEmbed s pos n tag
  | foreignArray n kind tag _ => eachPtr image field n (foreignElemClone s kind tag)
  | foreignTuple kind items => eachItem image (foreignElemClone s kind) field items
  | podVec _ => vecCloneStmt s none (vecDesc image field)
  | blockVec kind tag _ => vecCloneStmt s (some (kind, tag)) (vecDesc image field)
  | blockArrayVec kind tag _ =>
      if (vecDesc image field).start ≠ 0 then
        match kind with
        | .ref => cloneDataInto s (vecDesc image field)
        | kind => (eachElement s (vecDesc image field) (cloneRef kind tag)).andThen
            (cloneDataInto s (vecDesc image field))
      else done
  | foreignVec kind tag _ =>
      if (vecDesc image field).start ≠ 0 then
        (reading (s.toPtrs (vecDesc image field)) (each (foreignElemClone s kind tag))).andThen
          (touch .range (vecDesc image field).start)
      else done
  | vecArray n elem _ => each (fun k => vecCloneStmt s elem (vecDesc image (field + k * 16))) (List.range n)

/-! ### The variants of an enum -/

/-- The teardown arm of a variant, whose payload is at `field`. `single_block_variant` and `vec_variant` use
the offset as it is, and `array_variant` that of a weak reference. There are no arrays of vectors. -/
def Part.variantDrop (start : Nat) (image : List UInt8) (field : Nat) : Part → Trail
  | pod _ => done
  | block kind tag _ => teardownRef kind tag (fieldWord image field)
  | embed tag => event (.inplace tag (start + field))
  | foreign kind tag _ => foreignElemDrop s kind tag (widePtr image field)
  | blockArray n .weak _ _ => each (fun k => touch .weak (fieldWord image (field + k * 8))) (List.range n)
  | blockArray n kind tag _ => eachWord image field n (teardownRef kind tag)
  | embedArray n tag => eachEmbed s (start + field) n tag
  | foreignArray n kind tag _ => eachPtr image field n (foreignElemDrop s kind tag)
  | foreignTuple kind items => eachItem image (foreignElemDrop s kind) field items
  | podVec _ => podVecDrop (vecDesc image field)
  | blockVec kind tag _ => vecDrop s kind tag (vecDesc image field)
  | blockArrayVec kind tag _ => vecDrop s kind tag (vecDesc image field)
  | foreignVec .ref _ _ => podVecDrop (vecDesc image field)
  | foreignVec kind tag _ =>
      (reading (s.toPtrs (vecDesc image field)) (each (foreignElemDrop s kind tag))).andThen
        (podVecDrop (vecDesc image field))
  | vecArray _ _ _ => done

/-- The clone arm of a variant. -/
def Part.variantClone (start : Nat) (image : List UInt8) (field : Nat) : Part → Trail
  | pod _ => done
  | block kind tag _ => cloneRef kind tag (fieldWord image field)
  | embed tag => event (.inplace tag (start + field))
  | foreign kind tag _ => foreignElemClone s kind tag (widePtr image field)
  | blockArray n .weak _ _ => each (fun k => touch .bumpWeak (fieldWord image (field + k * 8))) (List.range n)
  | blockArray n kind tag _ => eachWord image field n (cloneRef kind tag)
  | embedArray n tag => eachEmbed s (start + field) n tag
  | foreignArray n kind tag _ => eachPtr image field n (foreignElemClone s kind tag)
  | foreignTuple kind items => eachItem image (foreignElemClone s kind) field items
  | podVec _ => cloneDataInto s (vecDesc image field)
  | blockVec kind tag _ => vecClone s kind tag (vecDesc image field)
  | blockArrayVec kind tag _ => vecClone s kind tag (vecDesc image field)
  | foreignVec kind tag _ =>
      (reading (s.toPtrs (vecDesc image field)) (each (foreignElemClone s kind tag))).andThen
        (touch .range (vecDesc image field).start)
  | vecArray _ _ _ => done

/-! ### Blocks -/

/-- Whether a variant has an arm in either `match`. -/
def Part.hasArm : Part → Bool
  | pod _ => false
  | block kind _ _ => kind ≠ .ref
  | foreign kind _ _ => kind ≠ .ref
  | blockArray _ kind _ _ => kind ≠ .ref
  | foreignArray _ kind _ _ => kind ≠ .ref
  | foreignTuple kind _ => kind ≠ .ref
  | _ => true

/-- The body over an image that is read: a statement for each field, in order, or the arm of the variant. An
enum none of whose variants has an arm has an empty `match`. -/
def Contents.walk (image : List UInt8) (field variant : Nat → Part → Trail) : Contents → Trail
  | struct fields => each (fun f => field f.1 f.2) fields
  | enum disc width payload variants =>
      if ∀ v ∈ variants, v.2.hasArm = false then done
      else match variants.lookup (discriminant image disc width) with
        | some part => variant payload part
        | none => fail invalidDiscriminant

/-- Whether `__bstack_drop_children` of an enum is empty. -/
def Contents.childless : Contents → Bool
  | struct _ => false
  | enum _ _ _ variants => ∀ v ∈ variants, v.2.hasArm = false

/-- `__bstack_drop_children`. -/
def GenType.dropChildren (T : GenType) (start : Nat) : Trail :=
  if T.contents.childless then done
  else reading (s.readOnDisk start T.size) fun image =>
    T.contents.walk image (fun field part => part.fieldDrop s start image field)
      fun payload part => part.variantDrop s start image payload

def sharedBlock : IoError :=
  ⟨.unsupported, "TryCloneIn: a reference-counted (`rc` / `rc, weak`) block is shared, not deep-cloned — " ++
    "duplicate its handle with `BStackRc::try_clone` (see the `TryClone` trait)"⟩

def sharedEnumBlock : IoError :=
  ⟨.unsupported, "TryCloneIn: a reference-counted (`rc` / `rc, weak`) enum block is shared, not " ++
    "deep-cloned — duplicate its handle with `BStackRc::try_clone` (see the `TryClone` trait)"⟩

def Contents.shared : Contents → IoError
  | struct _ => sharedBlock
  | enum _ _ _ _ => sharedEnumBlock

/-- `__bstack_clone_children_inplace`. -/
def GenType.cloneChildren (T : GenType) (start : Nat) : Trail :=
  if T.mode = .plain then reading (s.readOnDisk start T.size) fun image =>
    T.contents.walk image (fun field part => part.fieldClone s start image field)
      fun payload part => part.variantClone s start image payload
  else fail T.contents.shared

/-! ### Trees of blocks -/

/-- A block: its file, its type and its offset. -/
structure BlockAt where
  file : Nat
  tag : EightCC
  off : Nat
deriving DecidableEq

/-- The block that an event of the walk of `b` walks. -/
def Event.block (b : BlockAt) : Event → Option BlockAt
  | touch t => t.action.target.map fun tag => ⟨if t.file = 0 then b.file else t.file, tag, t.off⟩
  | inplace tag pos => some ⟨b.file, tag, pos⟩

/-- The blocks that a walk of `root` comes to. -/
inductive Reaches (walk : BlockAt → Trail) (root : BlockAt) : BlockAt → Prop
  | root : Reaches walk root root
  | step {b b' : BlockAt} {e : Event} (h : Reaches walk root b) (hmem : e ∈ (walk b).events)
      (hblock : e.block b = some b') : Reaches walk root b'

/-- The teardown of a block, in files and types given by `files` and `types`. -/
def dropWalk (types : EightCC → GenType) (files : Nat → Surroundings) (b : BlockAt) : Trail :=
  (types b.tag).dropChildren (files b.file) b.off

def cloneWalk (types : EightCC → GenType) (files : Nat → Surroundings) (b : BlockAt) : Trail :=
  (types b.tag).cloneChildren (files b.file) b.off

end SlotWalk

end BStackRaii
