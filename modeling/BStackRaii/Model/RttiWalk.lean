import BStackRaii.Model.SlotWalk
/-!
# The interpreted teardown and deep clone

`rtti/teardown.rs` and `rtti/clone.rs`: the same walks as the generated ones, over the shapes of a schema and
with a work list. What a walk finds is collected, and done once the walk is over; only the copies of a clone
and what it does in other files are done at once. An error keeps what was done so far.

The depth bound of the hops between files is left out, and so are the writes to the fresh blocks of a clone,
which no walk reads.
-/

namespace BStackRaii

namespace RttiWalk

open SlotWalk

/-- Code of a walk on the state `σ`. -/
abbrev Walking (σ α : Type) : Type := ExceptT RttiError (StateM σ) α

section Common

variable {σ : Type}

def lift {α : Type} (r : RttiResult α) : Walking σ α := ExceptT.mk (pure r)

/-- The offset of element `i`. -/
def elementOff (base i stride : Nat) : RttiResult Nat := do
  let rel ← mulOff i stride
  addOff base rel

/-- `Shape::foreign_leaf`. -/
def foreignLeaf : Shape → Option (EightCC × OwnershipKind)
  | .foreign tag kind => some (tag, kind)
  | .option inner => foreignLeaf inner
  | _ => none

def ordinal (reg : RttiRegistry) (tag : EightCC) : Walking σ RttiOrdinal :=
  match reg.ordinalOf tag with
  | some ord => pure ord
  | none => throw unknownTag

end Common

/-! ### Teardown -/

inductive TdOp
  | block (ord : RttiOrdinal) (blockOff : Nat) (emit : Bool)
  | shape (shape : Shape) (offset : Nat)

structure TdState where
  work : List TdOp
  toFree : List Range
  strongReleases : List (EightCC × Nat)
  weakReleases : List Nat
  foreignReleases : List (EightCC × OwnershipKind × Nat × Nat)
  budget : Nat

def WALK_BUDGET : Nat := 4000000

def teardownBudget : RttiError := ⟨.budget, "RTTI teardown budget exceeded (corrupt data or a cycle?)"⟩

namespace TdState

def init (ord : RttiOrdinal) (blockOff : Nat) : TdState where
  work := [.block ord blockOff true]
  toFree := []
  strongReleases := []
  weakReleases := []
  foreignReleases := []
  budget := WALK_BUDGET

def push (op : TdOp) : Walking TdState Unit := modify fun st => { st with work := op :: st.work }

def charge (n : Nat) : Walking TdState Unit := do
  let st ← get
  if n ≤ st.budget then modify fun st => { st with budget := st.budget - n } else throw teardownBudget

def free (range : Range) : Walking TdState Unit := modify fun st => { st with toFree := st.toFree ++ [range] }

/-- A reference that is null releases nothing. -/
def releaseStrong (tag : EightCC) (off : Nat) : Walking TdState Unit :=
  if off ≠ 0 then modify fun st => { st with strongReleases := st.strongReleases ++ [(tag, off)] } else pure ()

def releaseWeak (off : Nat) : Walking TdState Unit :=
  if off ≠ 0 then modify fun st => { st with weakReleases := st.weakReleases ++ [off] } else pure ()

def releaseForeign (tag : EightCC) (kind : OwnershipKind) (fp : WidePtr) : Walking TdState Unit :=
  modify fun st => { st with foreignReleases := st.foreignReleases ++ [(tag, kind, fp.file, fp.offset)] }

end TdState

section Teardown

variable (reg : RttiRegistry) (data : List UInt8)

def pushFields (base : Nat) (fields : List RttiField) : Walking TdState Unit :=
  fields.forM fun f => do
    let offset ← lift (addOff base f.offset.toNat)
    TdState.push (.shape f.shape offset)

/-- The `TdOp::Block` arm. -/
def teardownBlock (ord : RttiOrdinal) (blockOff : Nat) (emit : Bool) : Walking TdState Unit := do
  let ty ← lift (reg.loadType ord)
  if emit then TdState.free ⟨blockOff, ty.ondiskSize.toNat⟩
  match ty.body with
  | .struct fields => pushFields blockOff fields
  | .enum e => do
      let (variant, payloadBase) ← lift (e.resolveVariant data blockOff)
      pushFields payloadBase variant.fields

def pushTuple (off : Nat) : List Shape → Walking TdState Unit
  | [] => pure ()
  | item :: items => do
      TdState.push (.shape item off)
      let stride ← lift (reg.shapeStride item)
      let off' ← lift (addOff off stride)
      pushTuple off' items

/-- A loop over the elements of a vector, which are words. -/
def eachWord (base stride len : Nat) (f : Nat → Walking TdState Unit) : Walking TdState Unit :=
  (List.range len).forM fun i => do
    let pos ← lift (elementOff base i stride)
    let e ← lift (dataU64 data pos)
    f e

/-- The elements of a vector, by their shape without its options. -/
def teardownElements (elem : Shape) (base stride len : Nat) : Walking TdState Unit :=
  match elem with
  | .owned tag => do
      let ord ← ordinal reg tag
      eachWord data base stride len fun e => if e ≠ 0 then TdState.push (.block ord e true) else pure ()
  | .strong tag => eachWord data base stride len (TdState.releaseStrong tag)
  | .weak _ => eachWord data base stride len TdState.releaseWeak
  | other =>
      match foreignLeaf other with
      | some (tag, kind) => (List.range len).forM fun i => do
          let pos ← lift (elementOff base i stride)
          let fp ← lift (WidePtr.readFromStack data pos)
          TdState.releaseForeign tag kind fp
      | none => pure ()

/-- The `TdOp::Shape` arm. -/
def teardownShape (shape : Shape) (offset : Nat) : Walking TdState Unit :=
  match shape with
  | .pod _ => pure ()
  | .ref _ => pure ()
  | .classVar _ _ _ => pure ()
  | .owned tag => do
      let child ← lift (dataU64 data offset)
      if child ≠ 0 then do
        let ord ← ordinal reg tag
        TdState.push (.block ord child true)
  | .embed tag => do
      let ord ← ordinal reg tag
      TdState.push (.block ord offset false)
  | .strong tag => do
      let off ← lift (dataU64 data offset)
      TdState.releaseStrong tag off
  | .weak _ => do
      let off ← lift (dataU64 data offset)
      TdState.releaseWeak off
  | .foreign tag kind => do
      let fp ← lift (WidePtr.readFromStack data offset)
      TdState.releaseForeign tag kind fp
  | .option inner => do
      if ← lift (inner.optionPresent data offset) then TdState.push (.shape inner offset)
  | .array n inner => do
      TdState.charge n.toNat
      let stride ← lift (reg.shapeStride inner)
      (List.range n.toNat).forM fun i => do
        let pos ← lift (elementOff offset i stride)
        TdState.push (.shape inner pos)
  | .tuple items => pushTuple reg offset items
  | .vec inner => do
      let dataOff ← lift (dataU64 data offset)
      if dataOff ≠ 0 then do
        let dataSize ← lift (do dataU64 data (← addOff offset 8))
        let base ← lift (addOff dataOff RTTI_BYTEVEC_HEADER)
        let stride ← lift (reg.shapeStride inner)
        let byteLen ← lift (dataU64 data dataOff)
        let len ← lift (checkedVecLen byteLen dataSize stride)
        TdState.charge len
        teardownElements reg data inner.peelOption base stride len
        TdState.free ⟨dataOff, dataSize⟩

def teardownOp : TdOp → Walking TdState Unit
  | .block ord blockOff emit => teardownBlock reg data ord blockOff emit
  | .shape shape offset => teardownShape reg data shape offset

/-- The work loop, for `turns` turns. Every turn costs at least one unit of the budget. -/
def teardownLoop : Nat → Walking TdState Unit
  | 0 => throw teardownBudget
  | turns + 1 => do
      let st ← get
      match st.work with
      | [] => pure ()
      | op :: work => do
          modify fun st => { st with work }
          TdState.charge 1
          teardownOp reg data op
          teardownLoop turns

end Teardown

/-- What the commit phases have done. -/
abbrev Committing (α : Type) : Type := Walking (List Touch) α

def touch (t : Touch) : Committing Unit := modify fun done => done ++ [t]

section Commit

variable (reg : RttiRegistry) (attached : Nat → Bool)

/-- `teardown_foreign_in`, in the file with the id `file`. -/
def teardownForeignIn (file : Nat) (tag : EightCC) (kind : OwnershipKind) (off : Nat) : Committing Unit := do
  let _ ← ordinal reg tag
  match kind with
  | .ref => pure ()
  | .owned => touch ⟨file, .owned tag, off⟩
  | .strong => touch ⟨file, .strong tag, off⟩
  | .weak => touch ⟨file, .weak, off⟩

/-- `teardown_foreign`. A file that is not attached leaks. -/
def teardownForeign (tag : EightCC) (kind : OwnershipKind) (file off : Nat) : Committing Unit :=
  if off = 0 then pure ()
  else if kind = .ref then pure ()
  else if file = 0 ∨ attached file then teardownForeignIn reg file tag kind off
  else pure ()

/-- The commit phase of a teardown: the releases, then the frees, children first. -/
def teardownCommit (st : TdState) : Committing Unit := do
  st.strongReleases.forM fun (tag, off) => do
    let _ ← ordinal reg tag
    touch ⟨0, .strong tag, off⟩
  st.weakReleases.forM fun off => touch ⟨0, .weak, off⟩
  st.foreignReleases.forM fun (tag, kind, file, off) => teardownForeign reg attached tag kind file off
  st.toFree.reverse.forM fun range => touch ⟨0, .range, range.start⟩

/-- What `teardown` does to the block at `blockOff`, and how it ends. -/
def teardown (data : List UInt8) (ord : RttiOrdinal) (blockOff : Nat) : RttiResult Unit × List Touch :=
  match (teardownLoop reg data (WALK_BUDGET + 1)).run (TdState.init ord blockOff) with
  | (.ok (), st) => (teardownCommit reg attached st).run []
  | (.error e, _) => (.error e, [])

end Commit

/-! ### Deep clone -/

inductive CloneOp
  | block (srcOff : Nat) (ord : RttiOrdinal)
  | inline (srcBase newBase : Nat) (ord : RttiOrdinal)
  | field (shape : Shape) (srcOff newOff : Nat)

/-- `touched` is what was done, and a bump is a counter with the reference that led to it. -/
structure CloneState where
  work : List CloneOp
  map : List (Nat × Nat)
  patches : List (Nat × Nat)
  bumps : List (Touch × Nat)
  allocated : List Range
  touched : List Touch
  budget : Nat

def cloneBudget : RttiError := ⟨.budget, "RTTI clone budget exceeded (corrupt data or a cycle?)"⟩

def nullBackpointer : RttiError := ⟨.malformed, "RTTI: weak block has a null control back-pointer"⟩

def notCloned (what : String) : RttiError := ⟨.clone, "RTTI clone: " ++ what ++ " was not cloned"⟩

def detachedTarget : RttiError :=
  ⟨.foreignFile, "RTTI clone: the foreign target's file is detached / not attached"⟩

namespace CloneState

def init (ord : RttiOrdinal) (rootSrc : Nat) : CloneState where
  work := [.block rootSrc ord]
  map := []
  patches := []
  bumps := []
  allocated := []
  touched := []
  budget := WALK_BUDGET

def push (op : CloneOp) : Walking CloneState Unit := modify fun st => { st with work := op :: st.work }

def charge (n : Nat) : Walking CloneState Unit := do
  let st ← get
  if n ≤ st.budget then modify fun st => { st with budget := st.budget - n } else throw cloneBudget

def touch (t : Touch) : Walking CloneState Unit := modify fun st => { st with touched := st.touched ++ [t] }

def patch (newSlot child : Nat) : Walking CloneState Unit :=
  modify fun st => { st with patches := st.patches ++ [(newSlot, child)] }

def bump (t : Touch) (counter : Nat) : Walking CloneState Unit :=
  modify fun st => { st with bumps := st.bumps ++ [(t, counter)] }

end CloneState

/-- `NonNullOffset::from_field`. -/
def nonNull (off : Nat) : Walking CloneState Nat := lift ((fromField off).mapError RttiError.ofIo)

section Clone

variable (reg : RttiRegistry) (attached : Nat → Bool) (data : List UInt8)
  (allocate : List Range → Nat → Except IoError Nat)

/-- `alloc_copy`: a copy of the `size` bytes at `srcOff`, where the allocator puts it. -/
def allocCopy (srcOff size : Nat) : Walking CloneState Nat := do
  let src ← nonNull srcOff
  let st ← get
  let new ← lift ((allocate st.allocated size).mapError RttiError.ofIo)
  modify fun st => { st with allocated := st.allocated ++ [⟨new, size⟩] }
  CloneState.touch ⟨0, .range, src⟩
  pure new

def pushCloneFields (srcBase newBase : Nat) (fields : List RttiField) : Walking CloneState Unit :=
  fields.forM fun f => do
    let src ← lift (addOff srcBase f.offset.toNat)
    let new ← lift (addOff newBase f.offset.toNat)
    CloneState.push (.field f.shape src new)

/-- `push_clone_fields`. -/
def pushBody (ty : RttiType) (srcBase newBase : Nat) : Walking CloneState Unit :=
  match ty.body with
  | .struct fields => pushCloneFields srcBase newBase fields
  | .enum e => do
      let (variant, srcPayload) ← lift (e.resolveVariant data srcBase)
      let newPayload ← lift (addOff newBase e.payloadOff.toNat)
      pushCloneFields srcPayload newPayload variant.fields

/-- `strong_bump_off`: the counter of the block at `child`. -/
def strongBumpOff (tag : EightCC) (child : Nat) : Walking CloneState Nat := do
  let ord ← ordinal reg tag
  let ty ← lift (reg.loadType ord)
  if ty.weak then do
    let ctrl ← lift (do dataU64 data (← addOff child CTRL_BACKPTR_OFFSET))
    if ctrl = 0 then throw nullBackpointer
    lift (addOff ctrl CTRL_STRONG_OFFSET)
  else lift (addOff child RC_REFCOUNT_OFFSET)

/-- A strong reference that is null is copied as it is. -/
def cloneStrong (tag : EightCC) (child : Nat) : Walking CloneState Unit :=
  if child ≠ 0 then do
    let counter ← strongBumpOff reg data tag child
    CloneState.bump ⟨0, .bumpStrong tag, child⟩ counter
  else pure ()

def cloneWeak (ctrl : Nat) : Walking CloneState Unit :=
  if ctrl ≠ 0 then do
    let counter ← lift (addOff ctrl CTRL_WEAK_OFFSET)
    CloneState.bump ⟨0, .bumpWeak, ctrl⟩ counter
  else pure ()

/-- `clone_foreign_in`, in the file with the id `file`. -/
def cloneForeignIn (file : Nat) (tag : EightCC) (kind : OwnershipKind) (off : Nat) : Walking CloneState Unit := do
  let _ ← ordinal reg tag
  match kind with
  | .ref => pure ()
  | .owned => CloneState.touch ⟨file, .copy tag, off⟩
  | .strong => CloneState.touch ⟨file, .bumpStrong tag, off⟩
  | .weak => CloneState.touch ⟨file, .bumpWeak, off⟩

/-- `clone_foreign`. -/
def cloneForeign (tag : EightCC) (kind : OwnershipKind) (srcOff newOff : Nat) : Walking CloneState Unit :=
  if kind = .ref then pure ()
  else do
    let fp ← lift (WidePtr.readFromStack data srcOff)
    if fp.offset = 0 then pure ()
    else do
      let _ ← nonNull newOff
      if fp.file = 0 ∨ attached fp.file then cloneForeignIn reg fp.file tag kind fp.offset
      else throw detachedTarget

def pushCloneTuple (src new : Nat) : List Shape → Walking CloneState Unit
  | [] => pure ()
  | item :: items => do
      CloneState.push (.field item src new)
      let stride ← lift (reg.shapeStride item)
      let src' ← lift (addOff src stride)
      let new' ← lift (addOff new stride)
      pushCloneTuple src' new' items

/-- A loop over the elements of a vector, which are words. -/
def eachCloneWord (src stride len : Nat) (f : Nat → Nat → Walking CloneState Unit) : Walking CloneState Unit :=
  (List.range len).forM fun i => do
    let pos ← lift (elementOff src i stride)
    let e ← lift (dataU64 data pos)
    f i e

def cloneElements (elem : Shape) (src new stride len : Nat) : Walking CloneState Unit :=
  match elem with
  | .owned tag => do
      let ord ← ordinal reg tag
      eachCloneWord data src stride len fun i e =>
        if e ≠ 0 then do
          let slot ← lift (elementOff new i stride)
          CloneState.patch slot e
          CloneState.push (.block e ord)
        else pure ()
  | .strong tag => eachCloneWord data src stride len fun _ e => cloneStrong reg data tag e
  | .weak _ => eachCloneWord data src stride len fun _ e => cloneWeak e
  | other =>
      match foreignLeaf other with
      | some (tag, kind) => (List.range len).forM fun i => do
          let pos ← lift (elementOff src i stride)
          let slot ← lift (elementOff new i stride)
          cloneForeign reg attached data tag kind pos slot
      | none => pure ()

/-- The `CloneOp::Field` arm. -/
def cloneField (shape : Shape) (srcOff newOff : Nat) : Walking CloneState Unit :=
  match shape with
  | .pod _ => pure ()
  | .classVar _ _ _ => pure ()
  | .ref _ => pure ()
  | .owned tag => do
      let child ← lift (dataU64 data srcOff)
      if child ≠ 0 then do
        let ord ← ordinal reg tag
        CloneState.patch newOff child
        CloneState.push (.block child ord)
  | .embed tag => do
      let ord ← ordinal reg tag
      CloneState.push (.inline srcOff newOff ord)
  | .strong tag => do
      let child ← lift (dataU64 data srcOff)
      cloneStrong reg data tag child
  | .weak _ => do
      let ctrl ← lift (dataU64 data srcOff)
      cloneWeak ctrl
  | .foreign tag kind => cloneForeign reg attached data tag kind srcOff newOff
  | .option inner => do
      if ← lift (inner.optionPresent data srcOff) then CloneState.push (.field inner srcOff newOff)
  | .array n inner => do
      CloneState.charge n.toNat
      let stride ← lift (reg.shapeStride inner)
      (List.range n.toNat).forM fun i => do
        let src ← lift (elementOff srcOff i stride)
        let new ← lift (elementOff newOff i stride)
        CloneState.push (.field inner src new)
  | .tuple items => pushCloneTuple reg srcOff newOff items
  | .vec inner => do
      let srcData ← lift (dataU64 data srcOff)
      if srcData ≠ 0 then do
        let dataSize ← lift (do dataU64 data (← addOff srcOff 8))
        let newData ← allocCopy allocate srcData dataSize
        let stride ← lift (reg.shapeStride inner)
        let byteLen ← lift (dataU64 data srcData)
        let len ← lift (checkedVecLen byteLen dataSize stride)
        CloneState.charge len
        let src ← lift (addOff srcData RTTI_BYTEVEC_HEADER)
        let new ← lift (addOff newData RTTI_BYTEVEC_HEADER)
        cloneElements reg attached data inner.peelOption src new stride len

def cloneOp : CloneOp → Walking CloneState Unit
  | .block srcOff ord => do
      let ty ← lift (reg.loadType ord)
      let new ← allocCopy allocate srcOff ty.ondiskSize.toNat
      modify fun st => { st with map := (srcOff, new) :: st.map }
      pushBody data ty srcOff new
  | .inline srcBase newBase ord => do
      let ty ← lift (reg.loadType ord)
      pushBody data ty srcBase newBase
  | .field shape srcOff newOff => cloneField reg attached data allocate shape srcOff newOff

/-- The work loop, for `turns` turns. -/
def cloneLoop : Nat → Walking CloneState Unit
  | 0 => throw cloneBudget
  | turns + 1 => do
      let st ← get
      match st.work with
      | [] => pure ()
      | op :: work => do
          modify fun st => { st with work }
          CloneState.charge 1
          cloneOp reg attached data allocate op
          cloneLoop turns

/-- `clone_build`: the walk, the repointed slots, the bumps, and the copy of the root. -/
def cloneBuild (rootSrc : Nat) : Walking CloneState Nat := do
  cloneLoop reg attached data allocate (WALK_BUDGET + 1)
  let st ← get
  st.patches.forM fun (_, child) =>
    if (st.map.lookup child).isSome then pure () else throw (notCloned "an owned child")
  st.bumps.forM fun (t, _) => CloneState.touch t
  match st.map.lookup rootSrc with
  | some new => pure new
  | none => throw (notCloned "the root")

/-- What `clone_value` does, and the offset of the copy. -/
def cloneValue (ord : RttiOrdinal) (rootSrc : Nat) : RttiResult Nat × List Touch :=
  let (out, st) := (cloneBuild reg attached data allocate rootSrc).run (CloneState.init ord rootSrc)
  (out, st.touched)

end Clone

end RttiWalk

end BStackRaii
