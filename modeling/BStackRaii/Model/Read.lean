import BStackRaii.Logic.Worklist
import BStackRaii.Model.Registry
/-!
# The read interpreter

`rtti/read.rs`, with what it uses of `rtti/walk.rs`, `rtti/shape.rs` and `primitives/wide_ptr.rs`. A data
file is read as the schema stack is. The cache of decoded types is left out: nothing writes to the schema
during a walk, so a cached type is the one that `load_type` would return again.
-/

namespace BStackRaii

/-- What an interpreter reads out of a data file. -/
inductive Value
  | pod (bytes : List UInt8)
  | block (tag : EightCC) (fields : List (String × Value))
  | enum (tag : EightCC) (variant : String) (fields : List (String × Value))
  | ref (tag : EightCC) (offset : Nat)
  | foreign (tag : EightCC) (kind : OwnershipKind) (fileId offset : Nat)
  | null
  | some (inner : Value)
  | array (items : List Value)
  | vec (items : List Value)
  | tuple (items : List Value)
  | classVar (value : List UInt8)

/-! ### Offsets and words -/

def rttiOffsetOverflow : RttiError := ⟨.offsetOverflow, "RTTI offset arithmetic overflow"⟩

def addOff (a b : Nat) : RttiResult Nat := if a + b < 2 ^ 64 then .ok (a + b) else .error rttiOffsetOverflow

def mulOff (a b : Nat) : RttiResult Nat := if a * b < 2 ^ 64 then .ok (a * b) else .error rttiOffsetOverflow

/-- `read_u64`. -/
def dataU64 (data : List UInt8) (off : Nat) : RttiResult Nat := (stackGet data off 8).map leNat

/-- A pointer into a file: `{ file_id: u32 @0, type_index: u32 @4, offset: u64 @8 }`. -/
structure WidePtr where
  file : Nat
  ty : Nat
  offset : Nat
deriving DecidableEq, Repr

namespace WidePtr

def decode (b : List UInt8) : WidePtr :=
  ⟨leNat (b.take 4), leNat ((b.drop 4).take 4), leNat ((b.drop 8).take 8)⟩

def readFromStack (data : List UInt8) (off : Nat) : RttiResult WidePtr := (stackGet data off 16).map decode

def isNull (p : WidePtr) : Bool := p.offset = 0

end WidePtr

/-! ### Walk primitives -/

def RTTI_BYTEVEC_HEADER : Nat := 16

def VECDESC_LEN : Nat := 16

def FOREIGN_REPR_LEN : Nat := 16

/-- The element count of a vector's data block, whose length word must fit the block. -/
def checkedVecLen (byteLen dataSize stride : Nat) : RttiResult Nat :=
  let usable := dataSize - RTTI_BYTEVEC_HEADER
  if byteLen > usable then
    .error ⟨.vecLen, "RTTI vector length (" ++ toString byteLen ++ " bytes) exceeds its data block (" ++
      toString usable ++ " usable bytes) — corrupt length word"⟩
  else .ok (byteLen / stride)

/-- The mask of a discriminant's low `width` bytes. -/
def discMask (width : Nat) : Nat := if width ≥ 8 then 2 ^ 64 - 1 else 2 ^ (width * 8) - 1

def readDisc (data : List UInt8) (off width : Nat) : RttiResult Nat :=
  if width > 8 then .error ⟨.discWidth, "RTTI enum discriminant width exceeds 8 bytes"⟩
  else (stackGet data off width).map leNat

def noVariant (raw : Nat) : RttiError := ⟨.noVariant, "no RTTI variant for discriminant " ++ toString raw⟩

/-- The active variant of the enum block at `blockOff`, and where its payload begins. -/
def RttiEnum.resolveVariant (e : RttiEnum) (data : List UInt8) (blockOff : Nat) :
    RttiResult (RttiVariant × Nat) := do
  let raw ← readDisc data (← addOff blockOff e.discOff.toNat) e.discWidth.toNat
  let mask := discMask e.discWidth.toNat
  match e.variants.find? fun v => v.discValue.toUInt64.toNat &&& mask = raw with
  | none => .error (noVariant raw)
  | some variant => do
      let payloadBase ← addOff blockOff e.payloadOff.toNat
      pure (variant, payloadBase)

/-- Whether an optional slot at `base` holds a `shape`. -/
def Shape.optionPresent (shape : Shape) (data : List UInt8) (base : Nat) : RttiResult Bool :=
  match shape with
  | .foreign _ _ => do
      let p ← WidePtr.readFromStack data base
      pure !p.isNull
  | _ => do
      let word ← dataU64 data base
      pure (word != 0)

namespace RttiRegistry

variable (reg : RttiRegistry) (data : List UInt8)

mutual

/-- The width of one element on disk. -/
def shapeStride : Shape → RttiResult Nat
  | .pod width => .ok width.toNat
  | .owned _ => .ok 8
  | .strong _ => .ok 8
  | .weak _ => .ok 8
  | .ref _ => .ok 8
  | .foreign _ _ => .ok FOREIGN_REPR_LEN
  | .vec _ => .ok VECDESC_LEN
  | .option inner => shapeStride inner
  | .array n inner => do
      let stride ← shapeStride inner
      mulOff n.toNat stride
  | .tuple items => sumStrides 0 items
  | .embed tag =>
      match reg.ordinalOf tag with
      | none => .error unknownTag
      | some ord => do
          let ty ← reg.loadType ord
          pure ty.ondiskSize.toNat
  | .classVar _ _ _ => .ok 0

def sumStrides (sum : Nat) : List Shape → RttiResult Nat
  | [] => .ok sum
  | item :: items => do
      let stride ← shapeStride item
      let sum' ← addOff sum stride
      sumStrides sum' items

end

end RttiRegistry

/-! ### The machine -/

/-- One item of the walk. The `make` items take the values of their children off the results. -/
inductive ReadOp
  | block (ord : RttiOrdinal) (blockOff : Nat)
  | shape (shape : Shape) (offset : Nat)
  | makeBlock (tag : EightCC) (names : List String)
  | makeEnum (tag : EightCC) (variant : String) (names : List String)
  | makeArray (n : Nat)
  | makeVec (n : Nat)
  | makeTuple (n : Nat)
  | makeSome

def budgetExceeded : RttiError := ⟨.budget, "RTTI interpret budget exceeded (corrupt data or a cycle?)"⟩

def stackUnderflow : RttiError := ⟨.interpret, "RTTI interpret stack underflow"⟩

def producedValues (n : Nat) : RttiError :=
  ⟨.interpret, "RTTI interpret produced " ++ toString n ++ " values (expected 1)"⟩

/-- The stacks of `run_read`, tops first. -/
abbrev ReadMachine : Type := Worklist ReadOp Value

namespace ReadMachine

/-- `checked_sub` on the budget. -/
def charge (m : ReadMachine) (n : Nat) : RttiResult ReadMachine :=
  if n ≤ m.budget then .ok { m with budget := m.budget - n } else .error budgetExceeded

def push (m : ReadMachine) (v : Value) : ReadMachine := { m with results := v :: m.results }

/-- Push one more item. -/
def pushOp (m : ReadMachine) (op : ReadOp) : ReadMachine := { m with work := op :: m.work }

/-- Push a marker, and its children in order on top. -/
def pushNode (m : ReadMachine) (mark : ReadOp) (children : List ReadOp) : ReadMachine :=
  { m with work := children.reverse ++ mark :: m.work }

/-- `pop_n`: the top `n` results, in the order of declaration. -/
def popN (m : ReadMachine) (n : Nat) : RttiResult (List Value × ReadMachine) :=
  if n ≤ m.results.length then .ok (m.results.take n, { m with results := m.results.drop n })
  else .error stackUnderflow

/-- `pop_named`. -/
def popNamed (m : ReadMachine) (names : List String) : RttiResult (List (String × Value) × ReadMachine) := do
  let (vals, m') ← m.popN names.length
  pure (names.zip vals, m')

end ReadMachine

/-- The items for the fields of a block that begin at `base`. -/
def fieldOps (base : Nat) (fields : List RttiField) : RttiResult (List ReadOp) :=
  fields.mapM fun f => do
    let offset ← addOff base f.offset.toNat
    pure (.shape f.shape offset)

/-- The items for `n` elements from `base` on. -/
def elementOps (inner : Shape) (base stride n : Nat) : RttiResult (List ReadOp) :=
  (List.range n).mapM fun i => do
    let rel ← mulOff i stride
    let offset ← addOff base rel
    pure (.shape inner offset)

namespace RttiRegistry

variable (reg : RttiRegistry) (data : List UInt8)

/-- The items for the components of a tuple, one behind the other. -/
def tupleOps (off : Nat) : List Shape → RttiResult (List ReadOp)
  | [] => .ok []
  | item :: items => do
      let stride ← reg.shapeStride item
      let off' ← addOff off stride
      let ops ← tupleOps off' items
      pure (.shape item off :: ops)

/-- A followed edge. -/
def followEdge (m : ReadMachine) (tag : EightCC) (offset : Nat) : RttiResult ReadMachine := do
  let child ← dataU64 data offset
  if child = 0 then pure (m.push .null)
  else match reg.ordinalOf tag with
    | none => .error unknownTag
    | some ord => pure (m.pushOp (.block ord child))

/-- A reference that is recorded and not followed. -/
def recordRef (m : ReadMachine) (tag : EightCC) (offset : Nat) : RttiResult ReadMachine := do
  let target ← dataU64 data offset
  pure (m.push (.ref tag target))

/-- The arms of `Op::Shape`. -/
def execShape (m : ReadMachine) (shape : Shape) (offset : Nat) : RttiResult ReadMachine :=
  match shape with
  | .pod width =>
      if width.toNat > data.length - offset then
        .error ⟨.malformed, "RTTI POD width runs past the end of the data stack"⟩
      else do
        let bytes ← stackGet data offset width.toNat
        pure (m.push (.pod bytes))
  | .classVar _ _ value => pure (m.push (.classVar value))
  | .owned tag => reg.followEdge data m tag offset
  | .strong tag => reg.followEdge data m tag offset
  | .embed tag =>
      match reg.ordinalOf tag with
      | none => .error unknownTag
      | some ord => pure (m.pushOp (.block ord offset))
  | .weak tag => recordRef data m tag offset
  | .ref tag => recordRef data m tag offset
  | .foreign tag kind => do
      let p ← WidePtr.readFromStack data offset
      pure (m.push (.foreign tag kind p.file p.offset))
  | .option inner => do
      if ← inner.optionPresent data offset then pure (m.pushNode .makeSome [.shape inner offset])
      else pure (m.push .null)
  | .array n inner => do
      let m' ← m.charge n.toNat
      let stride ← reg.shapeStride inner
      let ops ← elementOps inner offset stride n.toNat
      pure (m'.pushNode (.makeArray n.toNat) ops)
  | .vec inner => do
      let dataOff ← dataU64 data offset
      if dataOff = 0 then pure (m.push (.vec []))
      else do
        let dataSize ← dataU64 data (← addOff offset 8)
        let base ← addOff dataOff RTTI_BYTEVEC_HEADER
        let stride ← reg.shapeStride inner
        let byteLen ← dataU64 data dataOff
        let len ← checkedVecLen byteLen dataSize stride
        let m' ← m.charge len
        let ops ← elementOps inner base stride len
        pure (m'.pushNode (.makeVec len) ops)
  | .tuple items => do
      let ops ← reg.tupleOps offset items
      pure (m.pushNode (.makeTuple items.length) ops)

/-- One item, with the machine as it is once the item is popped and paid. -/
def exec (m : ReadMachine) : ReadOp → RttiResult ReadMachine
  | .block ord blockOff => do
      let ty ← reg.loadType ord
      match ty.body with
      | .struct fields => do
          let ops ← fieldOps blockOff fields
          pure (m.pushNode (.makeBlock ty.tag (fields.map (·.name))) ops)
      | .enum e => do
          let (variant, payloadBase) ← e.resolveVariant data blockOff
          let ops ← fieldOps payloadBase variant.fields
          pure (m.pushNode (.makeEnum ty.tag variant.name (variant.fields.map (·.name))) ops)
  | .shape shape offset => reg.execShape data m shape offset
  | .makeBlock tag names => do
      let (fields, m') ← m.popNamed names
      pure (m'.push (.block tag fields))
  | .makeEnum tag variant names => do
      let (fields, m') ← m.popNamed names
      pure (m'.push (.enum tag variant fields))
  | .makeArray n => do
      let (items, m') ← m.popN n
      pure (m'.push (.array items))
  | .makeVec n => do
      let (items, m') ← m.popN n
      pure (m'.push (.vec items))
  | .makeTuple n => do
      let (items, m') ← m.popN n
      pure (m'.push (.tuple items))
  | .makeSome =>
      match m.results with
      | [] => .error stackUnderflow
      | inner :: results => pure { m with results := .some inner :: results }

/-- One turn of the loop, unless the work is done. -/
def turn (m : ReadMachine) : Option (RttiResult ReadMachine) :=
  match m.work with
  | [] => none
  | op :: work => some do
      let m' ← ReadMachine.charge { m with work } 1
      reg.exec data m' op

/-- The check behind the loop. -/
def finish : List Value → RttiResult Value
  | [v] => .ok v
  | vs => .error (producedValues vs.length)

/-- The loop, for `fuel` turns at most. -/
def loop : Nat → ReadMachine → Option (RttiResult Value)
  | 0, _ => none
  | fuel + 1, m =>
      match reg.turn data m with
      | none => some (finish m.results)
      | some (.error e) => some (.error e)
      | some (.ok m') => loop fuel m'

def READ_BUDGET : Nat := 4000000

def runRead (fuel : Nat) (seed : ReadOp) : Option (RttiResult Value) :=
  reg.loop data fuel ⟨[seed], [], READ_BUDGET⟩

def readValue (fuel : Nat) (ordinal : RttiOrdinal) (blockOff : Nat) : Option (RttiResult Value) :=
  reg.runRead data fuel (.block ordinal blockOff)

end RttiRegistry

end BStackRaii
