import BStackRaii.Logic.Codec
import BStackRaii.Model.World
/-!
# The schema vocabulary and its wire format

`rtti/schema.rs` over the cursors of `util/reader.rs` and `util/writer.rs`. A type descriptor is
encoded into the body of a schema record and decoded from it. The two sides check different things:
the encoder that every length fits its field, the decoder that the shapes nest at most
`MAX_SHAPE_DEPTH` levels, that a vector's element is a leaf and that a discriminant has a width.
-/

namespace BStackRaii

/-! ### Errors -/

inductive RttiErrorKind
  | malformed
  | ordinalRange
  | utf8
  | unknownTag
  | truncated
  | shapeLenMismatch
  | collision
  | budget
  | noVariant
  | interpret
  | untypedPointer
  | unregisteredTag
  | set
  | clone
  | foreignFile
  | swap
  | unsupported
  | classVar
  | vecLen
  | schemaMismatch
  | mutator
  | discWidth
  | tooLarge
  | depth
  | sharedMove
  | offsetOverflow
  | io (kind : ErrorKind)
deriving DecidableEq, Repr

structure RttiError where
  kind : RttiErrorKind
  msg : String
deriving DecidableEq, Repr

abbrev RttiResult := Except RttiError

def tooLarge (what limit : String) : RttiError :=
  ⟨.tooLarge, "RTTI " ++ what ++ " exceeds the maximum encodable size (" ++ limit ++ ")"⟩

/-- `{:#04x}`. -/
def hexByte (b : UInt8) : String :=
  "0x" ++ String.ofList [Nat.digitChar (b.toNat / 16), Nat.digitChar (b.toNat % 16)]

/-! ### Tags and names -/

structure EightCC where
  bytes : List UInt8
  length_eq : bytes.length = 8
deriving DecidableEq, Repr

def EightCC.zero : EightCC := ⟨List.replicate 8 0, rfl⟩

/-- Eight bytes as a tag. -/
def EightCC.ofBytes (bs : List UInt8) : EightCC := if h : bs.length = 8 then ⟨bs, h⟩ else .zero

@[simp] theorem EightCC.ofBytes_bytes (cc : EightCC) : EightCC.ofBytes cc.bytes = cc := by
  rw [ofBytes, dif_pos cc.length_eq]

def Reader.eightcc : Reader → Option (EightCC × Reader) :=
  Reader.mapFst EightCC.ofBytes (Reader.take 8)

def utf8Bytes (s : String) : List UInt8 := s.toByteArray.data.toList

def fromUtf8 (bs : List UInt8) : Option String := String.fromUTF8? ⟨bs.toArray⟩

@[simp] theorem fromUtf8_utf8Bytes (s : String) : fromUtf8 (utf8Bytes s) = some s := by
  have harray : (⟨(utf8Bytes s).toArray⟩ : ByteArray) = s.toByteArray := rfl
  rw [fromUtf8, harray, String.fromUTF8?, dif_pos s.isValidUTF8]
  rfl

inductive OwnershipKind
  | owned
  | strong
  | weak
  | ref
deriving DecidableEq, Repr

namespace OwnershipKind

def asU8 : OwnershipKind → UInt8
  | owned => 0
  | strong => 1
  | weak => 2
  | ref => 3

def fromU8 : UInt8 → Option OwnershipKind
  | 0 => some owned
  | 1 => some strong
  | 2 => some weak
  | 3 => some ref
  | _ => none

@[simp] theorem fromU8_asU8 (k : OwnershipKind) : fromU8 k.asU8 = some k := by
  cases k <;> rfl

end OwnershipKind

/-! ### Narrow writes and framed reads -/

def tryU8 (n : Nat) (what limit : String) : RttiResult UInt8 :=
  if n < 2 ^ 8 then .ok (UInt8.ofNat n) else .error (tooLarge what limit)

def tryU16 (n : Nat) (what limit : String) : RttiResult UInt16 :=
  if n < 2 ^ 16 then .ok (UInt16.ofNat n) else .error (tooLarge what limit)

def tryU32 (n : Nat) (what limit : String) : RttiResult UInt32 :=
  if n < 2 ^ 32 then .ok (UInt32.ofNat n) else .error (tooLarge what limit)

namespace Encoder

def u8 (v : UInt8) : Encoder RttiError Unit := emit (leBytes 1 v.toNat)

def u16 (v : UInt16) : Encoder RttiError Unit := emit (leBytes 2 v.toNat)

def u32 (v : UInt32) : Encoder RttiError Unit := emit (leBytes 4 v.toNat)

def u64 (v : UInt64) : Encoder RttiError Unit := emit (leBytes 8 v.toNat)

def i64 (v : Int64) : Encoder RttiError Unit := emit (leBytes 8 v.toUInt64.toNat)

def eightcc (cc : EightCC) : Encoder RttiError Unit := emit cc.bytes

end Encoder

/-- A short read is a truncated record. -/
def need {α : Type} (read : Reader → Option (α × Reader)) : Decoder RttiError α :=
  .ofOption ⟨.truncated, "truncated RTTI record"⟩ read

def align (a : Nat) : Decoder RttiError Unit :=
  .ofOption ⟨.truncated, "truncated RTTI record (alignment)"⟩ (Reader.skipPad a)

def string (n : Nat) : Decoder RttiError String := do
  let bs ← need (Reader.take n)
  match fromUtf8 bs with
  | some s => pure s
  | none => throw ⟨.utf8, "RTTI name is not valid UTF-8"⟩

/-! ### Shapes -/

/-- The type structure of a field. -/
inductive Shape
  | pod (width : UInt32)
  | owned (tag : EightCC)
  | strong (tag : EightCC)
  | weak (tag : EightCC)
  | ref (tag : EightCC)
  | embed (tag : EightCC)
  | foreign (tag : EightCC) (kind : OwnershipKind)
  | option (inner : Shape)
  | array (n : UInt32) (inner : Shape)
  | vec (inner : Shape)
  | tuple (items : List Shape)
  | classVar (mutable : Bool) (inner : Shape) (value : List UInt8)

def MAX_SHAPE_DEPTH : Nat := 64

namespace Shape

/-! The derived `PartialEq`. -/

mutual

def beq : Shape → Shape → Bool
  | pod width, pod width' => width == width'
  | owned tag, owned tag' => tag == tag'
  | strong tag, strong tag' => tag == tag'
  | weak tag, weak tag' => tag == tag'
  | ref tag, ref tag' => tag == tag'
  | embed tag, embed tag' => tag == tag'
  | foreign tag kind, foreign tag' kind' => tag == tag' && kind == kind'
  | option inner, option inner' => inner.beq inner'
  | array n inner, array n' inner' => n == n' && inner.beq inner'
  | vec inner, vec inner' => inner.beq inner'
  | tuple items, tuple items' => beqItems items items'
  | classVar mutable inner value, classVar mutable' inner' value' =>
      mutable == mutable' && inner.beq inner' && value == value'
  | _, _ => false

def beqItems : List Shape → List Shape → Bool
  | [], [] => true
  | s :: rest, s' :: rest' => s.beq s' && beqItems rest rest'
  | _, _ => false

end

mutual

theorem beq_iff : ∀ a b : Shape, a.beq b = true ↔ a = b
  | pod _, b | owned _, b | strong _, b | weak _, b | ref _, b | embed _, b | foreign _ _, b => by
      cases b <;> simp [beq]
  | option inner, b | vec inner, b => by
      cases b <;> simp [beq, beq_iff inner]
  | array n inner, b => by
      cases b <;> simp [beq, beq_iff inner]
  | tuple items, b => by
      cases b <;> simp [beq, beqItems_iff items]
  | classVar mutable inner value, b => by
      cases b <;> simp [beq, beq_iff inner, and_assoc]

theorem beqItems_iff : ∀ as bs : List Shape, beqItems as bs = true ↔ as = bs
  | [], bs => by
      cases bs <;> simp [beqItems]
  | a :: as, bs => by
      cases bs <;> simp [beqItems, beq_iff a, beqItems_iff as]

end

instance : DecidableEq Shape := fun a b => decidable_of_iff _ (beq_iff a b)

def peelOption : Shape → Shape
  | option inner => inner.peelOption
  | other => other

def isVecElementLeaf (s : Shape) : Bool :=
  match s.peelOption with
  | pod _ | ref _ | owned _ | strong _ | weak _ | foreign _ _ => true
  | _ => false

open Encoder

mutual

def encode : Shape → Encoder RttiError Unit
  | pod width => do
      u8 0x00
      u32 width
  | owned cc => do
      u8 0x01
      eightcc cc
  | strong cc => do
      u8 0x02
      eightcc cc
  | weak cc => do
      u8 0x03
      eightcc cc
  | ref cc => do
      u8 0x04
      eightcc cc
  | embed cc => do
      u8 0x05
      eightcc cc
  | foreign tag kind => do
      u8 0x06
      eightcc tag
      u8 kind.asU8
  | option inner => do
      u8 0x10
      inner.encode
  | array n inner => do
      u8 0x11
      u32 n
      inner.encode
  | vec inner => do
      u8 0x12
      inner.encode
  | tuple items => do
      u8 0x13
      let arity ← given (tryU8 items.length "tuple arity" "255 elements")
      u8 arity
      encodeItems items
  | classVar mutable inner value => do
      u8 0x20
      u8 mutable.toUInt8
      inner.encode
      let valueLen ← given (tryU32 value.length "class-variable value length" "4 GiB")
      u32 valueLen
      emit value

def encodeItems : List Shape → Encoder RttiError Unit
  | [] => pure ()
  | s :: rest => do
      s.encode
      encodeItems rest

end

/-- What follows a tag, with nested shapes read by `inner`. -/
def decodeTagged (inner : Decoder RttiError Shape) : UInt8 → Decoder RttiError Shape
  | 0x00 => do
      let width ← need Reader.u32
      pure (pod width)
  | 0x01 => do
      let cc ← need Reader.eightcc
      pure (owned cc)
  | 0x02 => do
      let cc ← need Reader.eightcc
      pure (strong cc)
  | 0x03 => do
      let cc ← need Reader.eightcc
      pure (weak cc)
  | 0x04 => do
      let cc ← need Reader.eightcc
      pure (ref cc)
  | 0x05 => do
      let cc ← need Reader.eightcc
      pure (embed cc)
  | 0x06 => do
      let cc ← need Reader.eightcc
      let kb ← need Reader.u8
      match OwnershipKind.fromU8 kb with
      | some kind => pure (foreign cc kind)
      | none => throw ⟨.unknownTag, "unknown RTTI foreign kind " ++ hexByte kb⟩
  | 0x10 => do
      let s ← inner
      pure (option s)
  | 0x11 => do
      let n ← need Reader.u32
      let s ← inner
      pure (array n s)
  | 0x12 => do
      let s ← inner
      if s.isVecElementLeaf then pure (vec s)
      else throw ⟨.malformed, "RTTI decode: a Vec element must be a leaf reference / POD / " ++
        "Foreign, not a nested container"⟩
  | 0x13 => do
      let k ← need Reader.u8
      let items ← inner.times k.toNat
      pure (tuple items)
  | 0x20 => do
      let mutable ← need Reader.u8
      let s ← inner
      let valueLen ← need Reader.u32
      let value ← need (Reader.take valueLen.toNat)
      pure (classVar (mutable != 0) s value)
  | other => throw ⟨.unknownTag, "unknown RTTI shape tag " ++ hexByte other⟩

/-- `decode_at` with `levels = MAX_SHAPE_DEPTH - depth` nesting levels left. -/
def decodeAt : Nat → Decoder RttiError Shape
  | 0 => throw ⟨.depth, "RTTI shape nesting exceeds the maximum depth"⟩
  | levels + 1 => do
      let tag ← need Reader.u8
      decodeTagged (decodeAt levels) tag

def decode : Decoder RttiError Shape := decodeAt MAX_SHAPE_DEPTH

end Shape

/-! ### Fields, variants and types -/

structure RttiField where
  name : String
  offset : UInt32
  shape : Shape
deriving DecidableEq

structure RttiVariant where
  name : String
  discValue : Int64
  fields : List RttiField
deriving DecidableEq

structure RttiEnum where
  discWidth : UInt8
  discOff : UInt16
  payloadOff : UInt16
  variants : List RttiVariant
deriving DecidableEq

inductive RttiBody
  | struct (fields : List RttiField)
  | enum (e : RttiEnum)
deriving DecidableEq

structure RttiType where
  tag : EightCC
  name : String
  rc : Bool
  weak : Bool
  ctrlTag : Option EightCC
  ondiskSize : UInt64
  body : RttiBody
deriving DecidableEq

section Records

open Encoder

def RttiField.encode (f : RttiField) : Encoder RttiError Unit := do
  let sw ← given f.shape.encode.alone
  let name := utf8Bytes f.name
  let nameLen ← given (tryU16 name.length "field name length" "65535 bytes")
  let shapeLen ← given (tryU16 sw.length "field shape encoding length" "65535 bytes")
  u32 f.offset
  u16 nameLen
  u16 shapeLen
  emit name
  Encoder.align 4
  emit sw
  Encoder.align 4

def RttiField.decode : Decoder RttiError RttiField := do
  let offset ← need Reader.u32
  let nameLen ← need Reader.u16
  let shapeLen ← need Reader.u16
  let name ← string nameLen.toNat
  align 4
  let shapeStart ← Decoder.position
  let shape ← Shape.decode
  let shapeEnd ← Decoder.position
  if shapeEnd - shapeStart ≠ shapeLen.toNat then
    throw ⟨.shapeLenMismatch, "RTTI field shape length mismatch"⟩
  else do
    align 4
    pure { name, offset, shape }

def RttiVariant.encode (v : RttiVariant) : Encoder RttiError Unit := do
  Encoder.align 8
  i64 v.discValue
  let name := utf8Bytes v.name
  let nameLen ← given (tryU16 name.length "variant name length" "65535 bytes")
  let fieldCount ← given (tryU16 v.fields.length "variant field count" "65535 fields")
  u16 nameLen
  u16 fieldCount
  u32 0
  emit name
  Encoder.align 8
  each RttiField.encode v.fields

def RttiVariant.decode : Decoder RttiError RttiVariant := do
  align 8
  let discValue ← need Reader.i64
  let nameLen ← need Reader.u16
  let fieldCount ← need Reader.u16
  let _pad ← need Reader.u32
  let name ← string nameLen.toNat
  align 8
  let fields ← RttiField.decode.times fieldCount.toNat
  pure { name, discValue, fields }

def FLAG_ENUM : UInt8 := 0b0000_0001

def FLAG_RC : UInt8 := 0b0000_0010

def FLAG_WEAK : UInt8 := 0b0000_0100

/-- The fixed part of a record body, as both walks over a record read it. -/
structure TypeHeader where
  flags : UInt8
  discWidth : UInt8
  count : UInt16
  discOff : UInt16
  payloadOff : UInt16
  ondiskSize : UInt64
  ctrlTag : EightCC
  name : String

def TypeHeader.encode (h : TypeHeader) (nameLen : UInt16) : Encoder RttiError Unit := do
  u8 h.flags
  u8 h.discWidth
  u16 nameLen
  u16 h.count
  u16 h.discOff
  u16 h.payloadOff
  u64 h.ondiskSize
  eightcc h.ctrlTag
  emit (utf8Bytes h.name)
  Encoder.align 8

def RttiBody.isEnum : RttiBody → Bool
  | .struct _ => false
  | .enum _ => true

def RttiType.flags (ty : RttiType) : UInt8 :=
  (if ty.body.isEnum then FLAG_ENUM else 0)
  ||| (if ty.rc then FLAG_RC else 0) ||| (if ty.weak then FLAG_WEAK else 0)

def RttiType.count (ty : RttiType) : RttiResult UInt16 :=
  match ty.body with
  | .struct fields => tryU16 fields.length "struct field count" "65535 fields"
  | .enum e => tryU16 e.variants.length "enum variant count" "65535 variants"

/-- A struct has no discriminant, and its three words are zero. -/
def RttiType.header (ty : RttiType) (count : UInt16) : TypeHeader where
  flags := ty.flags
  discWidth := match ty.body with | .struct _ => 0 | .enum e => e.discWidth
  count := count
  discOff := match ty.body with | .struct _ => 0 | .enum e => e.discOff
  payloadOff := match ty.body with | .struct _ => 0 | .enum e => e.payloadOff
  ondiskSize := ty.ondiskSize
  ctrlTag := ty.ctrlTag.getD .zero
  name := ty.name

def RttiType.encodeBody (ty : RttiType) : Encoder RttiError Unit :=
  match ty.body with
  | .struct fields => each RttiField.encode fields
  | .enum e => each RttiVariant.encode e.variants

def RttiType.encode (ty : RttiType) : Encoder RttiError Unit := do
  let count ← given ty.count
  let nameLen ← given (tryU16 (utf8Bytes ty.name).length "type name length" "65535 bytes")
  (ty.header count).encode nameLen
  ty.encodeBody

def encodeType (ty : RttiType) : RttiResult (List UInt8) := ty.encode.alone

end Records

def TypeHeader.decode : Decoder RttiError TypeHeader := do
  let flags ← need Reader.u8
  let discWidth ← need Reader.u8
  let nameLen ← need Reader.u16
  let count ← need Reader.u16
  let discOff ← need Reader.u16
  let payloadOff ← need Reader.u16
  let ondiskSize ← need Reader.u64
  let ctrlTag ← need Reader.eightcc
  let name ← string nameLen.toNat
  align 8
  pure { flags, discWidth, count, discOff, payloadOff, ondiskSize, ctrlTag, name }

def RttiBody.decode (h : TypeHeader) : Decoder RttiError RttiBody :=
  if h.flags &&& FLAG_ENUM != 0 then
    if h.discWidth > 8 then
      throw ⟨.discWidth, "RTTI enum discriminant width exceeds 8 bytes"⟩
    else if h.discWidth = 0 then
      throw ⟨.discWidth, "RTTI enum discriminant width is zero"⟩
    else do
      let variants ← RttiVariant.decode.times h.count.toNat
      pure (.enum ⟨h.discWidth, h.discOff, h.payloadOff, variants⟩)
  else do
    let fields ← RttiField.decode.times h.count.toNat
    pure (.struct fields)

def RttiType.decode (tag : EightCC) : Decoder RttiError RttiType := do
  let h ← TypeHeader.decode
  let body ← RttiBody.decode h
  pure {
    tag, body
    name := h.name
    rc := h.flags &&& FLAG_RC != 0
    weak := h.flags &&& FLAG_WEAK != 0
    ctrlTag := if h.flags &&& FLAG_WEAK != 0 then some h.ctrlTag else none
    ondiskSize := h.ondiskSize }

def decodeType (tag : EightCC) (body : List UInt8) : RttiResult RttiType :=
  (RttiType.decode tag).run body

/-! ### Framing and class variables -/

def frameRecord (tag : EightCC) (body : List UInt8) : RttiResult (List UInt8 × UInt32) := do
  let bodyLen ← tryU32 body.length "record body length" "4 GiB"
  let frame : Encoder RttiError Unit := do
    Encoder.eightcc tag
    Encoder.u32 bodyLen
    Encoder.u32 0
    Encoder.emit body
    Encoder.align 8
  let record ← frame.alone
  pure (record, bodyLen)

mutual

/-- `strip_shape` of `layouts_match`. -/
def Shape.strip : Shape → Shape
  | .classVar mutable inner value => .classVar mutable inner.strip (if mutable then [] else value)
  | .option inner => .option inner.strip
  | .vec inner => .vec inner.strip
  | .array n inner => .array n inner.strip
  | .tuple items => .tuple (Shape.stripItems items)
  | other => other

def Shape.stripItems : List Shape → List Shape
  | [] => []
  | s :: rest => s.strip :: Shape.stripItems rest

end

def RttiField.strip (f : RttiField) : RttiField := { f with shape := f.shape.strip }

/-- The type without the values of its mutable class variables. -/
def RttiType.strip (ty : RttiType) : RttiType :=
  { ty with body := match ty.body with
      | .struct fields => .struct (fields.map RttiField.strip)
      | .enum e => .enum { e with
          variants := e.variants.map fun v => { v with fields := v.fields.map RttiField.strip } } }

/-- Whether two types lay out their instances alike. -/
def layoutsMatch (a b : RttiType) : Bool := a.strip == b.strip

/-- The value slot of the `CLASS` shape at the cursor: its offset, its length and whether it is
mutable. -/
def classValueWithinShape : Decoder RttiError (Option (Nat × Nat × Bool)) := do
  let tag ← need Reader.u8
  if tag ≠ 0x20 then pure none
  else do
    let mutable ← need Reader.u8
    let _inner ← Shape.decode
    let valueLen ← need Reader.u32
    let pos ← Decoder.position
    let size ← Decoder.size
    if pos + valueLen.toNat > size then
      throw ⟨.classVar, "RTTI class variable: value length exceeds the record body"⟩
    else pure (some (pos, valueLen.toNat, mutable != 0))

/-- Walk the next `count` fields up to the one named `target`. -/
def classValueAmong (target : String) : Nat → Decoder RttiError (Option (Nat × Nat × Bool))
  | 0 => pure none
  | count + 1 => do
      let _offset ← need Reader.u32
      let fnameLen ← need Reader.u16
      let _shapeLen ← need Reader.u16
      let fname ← string fnameLen.toNat
      align 4
      if fname = target then classValueWithinShape
      else do
        let _shape ← Shape.decode
        align 4
        classValueAmong target count

def classValueIn (target : String) : Decoder RttiError (Option (Nat × Nat × Bool)) := do
  let h ← TypeHeader.decode
  if h.flags &&& FLAG_ENUM != 0 then pure none
  else classValueAmong target h.count.toNat

def classValueSlot (body : List UInt8) (target : String) :
    RttiResult (Option (Nat × Nat × Bool)) := (classValueIn target).run body

end BStackRaii
