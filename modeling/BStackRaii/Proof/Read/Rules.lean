import BStackRaii.Model.Read
/-!
# What a schema says of a data file

The rules of a direct reading: what each block and each slot comes to, with its parts in the order of
declaration. An array or a vector is charged once more for each element. `schema` is the recursion that they
generate, and `Worklist.Eval` of it the reading itself.
-/

namespace BStackRaii

open Worklist (Node Scheme)

def fieldItems (base : Nat) (fields : List RttiField) : List ReadOp :=
  fields.map fun f => .shape f.shape (base + f.offset.toNat)

def elements (inner : Shape) (base stride n : Nat) : List ReadOp :=
  (List.range n).map fun i => .shape inner (base + i * stride)

/-- The variant whose discriminant, in the width it is stored with, is the one on disk. -/
structure RttiEnum.Active (e : RttiEnum) (data : List UInt8) (off : Nat) (v : RttiVariant) : Prop where
  disc_lt : off + e.discOff.toNat < 2 ^ 64
  width_le : e.discWidth.toNat ≤ 8
  payload_lt : off + e.payloadOff.toNat < 2 ^ 64
  found : ∃ bytes, stackGet data (off + e.discOff.toNat) e.discWidth.toNat = .ok bytes ∧
    e.variants.find? (fun v => v.discValue.toUInt64.toNat % 2 ^ (8 * e.discWidth.toNat) = leNat bytes) = some v

namespace RttiRegistry

variable (reg : RttiRegistry) (data : List UInt8)

/-- The components of a tuple, one behind the other. -/
inductive TupleAt : Nat → List Shape → List ReadOp → Prop
  | nil (off : Nat) : TupleAt off [] []
  | cons {off stride : Nat} {item : Shape} {items : List Shape} {ops : List ReadOp}
      (hstride : reg.shapeStride item = .ok stride) (hlt : off + stride < 2 ^ 64)
      (h : TupleAt (off + stride) items ops) : TupleAt off (item :: items) (.shape item off :: ops)

inductive ReadRule : ReadOp → Node ReadOp Value → Nat → Prop
  | struct {ord : RttiOrdinal} {off : Nat} {ty : RttiType} {fields : List RttiField}
      (hty : reg.loadType ord = .ok ty) (hbody : ty.body = .struct fields)
      (hlt : ∀ f ∈ fields, off + f.offset.toNat < 2 ^ 64) :
      ReadRule (.block ord off) (.node (.makeBlock ty.tag (fields.map (·.name))) (fieldItems off fields)) 0
  | enum {ord : RttiOrdinal} {off : Nat} {ty : RttiType} {e : RttiEnum} {v : RttiVariant}
      (hty : reg.loadType ord = .ok ty) (hbody : ty.body = .enum e) (hactive : e.Active data off v)
      (hlt : ∀ f ∈ v.fields, off + e.payloadOff.toNat + f.offset.toNat < 2 ^ 64) :
      ReadRule (.block ord off) (.node (.makeEnum ty.tag v.name (v.fields.map (·.name)))
        (fieldItems (off + e.payloadOff.toNat) v.fields)) 0
  | pod {width : UInt32} {off : Nat} {bytes : List UInt8} (h : stackGet data off width.toNat = .ok bytes) :
      ReadRule (.shape (.pod width) off) (.leaf (.pod bytes)) 0
  | classVar {mutable : Bool} {inner : Shape} {value : List UInt8} {off : Nat} :
      ReadRule (.shape (.classVar mutable inner value) off) (.leaf (.classVar value)) 0
  | noChild {s : Shape} {tag : EightCC} {off : Nat} (hs : s = .owned tag ∨ s = .strong tag)
      (h : dataU64 data off = .ok 0) : ReadRule (.shape s off) (.leaf .null) 0
  | child {s : Shape} {tag : EightCC} {off target : Nat} {ord : RttiOrdinal}
      (hs : s = .owned tag ∨ s = .strong tag) (h : dataU64 data off = .ok target) (hne : target ≠ 0)
      (hord : reg.ordinalOf tag = some ord) : ReadRule (.shape s off) (.jump (.block ord target)) 0
  | embed {tag : EightCC} {off : Nat} {ord : RttiOrdinal} (hord : reg.ordinalOf tag = some ord) :
      ReadRule (.shape (.embed tag) off) (.jump (.block ord off)) 0
  | ref {s : Shape} {tag : EightCC} {off target : Nat} (hs : s = .weak tag ∨ s = .ref tag)
      (h : dataU64 data off = .ok target) : ReadRule (.shape s off) (.leaf (.ref tag target)) 0
  | foreign {tag : EightCC} {kind : OwnershipKind} {off : Nat} {p : WidePtr}
      (h : WidePtr.readFromStack data off = .ok p) :
      ReadRule (.shape (.foreign tag kind) off) (.leaf (.foreign tag kind p.file p.offset)) 0
  | none {inner : Shape} {off : Nat} (h : inner.optionPresent data off = .ok false) :
      ReadRule (.shape (.option inner) off) (.leaf .null) 0
  | some {inner : Shape} {off : Nat} (h : inner.optionPresent data off = .ok true) :
      ReadRule (.shape (.option inner) off) (.node .makeSome [.shape inner off]) 0
  | array {n : UInt32} {inner : Shape} {off stride : Nat} (hstride : reg.shapeStride inner = .ok stride)
      (hlt : ∀ i < n.toNat, off + i * stride < 2 ^ 64) :
      ReadRule (.shape (.array n inner) off)
        (.node (.makeArray n.toNat) (elements inner off stride n.toNat)) n.toNat
  | noVec {inner : Shape} {off : Nat} (h : dataU64 data off = .ok 0) :
      ReadRule (.shape (.vec inner) off) (.leaf (.vec [])) 0
  | vec {inner : Shape} {off dataOff dataSize stride byteLen len : Nat} (h : dataU64 data off = .ok dataOff)
      (hne : dataOff ≠ 0) (hlt : off + 8 < 2 ^ 64) (hsize : dataU64 data (off + 8) = .ok dataSize)
      (hbase : dataOff + RTTI_BYTEVEC_HEADER < 2 ^ 64) (hstride : reg.shapeStride inner = .ok stride)
      (hbyteLen : dataU64 data dataOff = .ok byteLen) (hlen : checkedVecLen byteLen dataSize stride = .ok len)
      (helem : ∀ i < len, dataOff + RTTI_BYTEVEC_HEADER + i * stride < 2 ^ 64) :
      ReadRule (.shape (.vec inner) off)
        (.node (.makeVec len) (elements inner (dataOff + RTTI_BYTEVEC_HEADER) stride len)) len
  | tuple {items : List Shape} {off : Nat} {ops : List ReadOp} (h : reg.TupleAt off items ops) :
      ReadRule (.shape (.tuple items) off) (.node (.makeTuple items.length) ops) 0

end RttiRegistry

namespace ReadOp

def arity : ReadOp → Option Nat
  | block _ _ => none
  | shape _ _ => none
  | makeBlock _ names => some names.length
  | makeEnum _ _ names => some names.length
  | makeArray n => some n
  | makeVec n => some n
  | makeTuple n => some n
  | makeSome => some 1

def build : ReadOp → List Value → Value
  | makeBlock tag names, vs => .block tag (names.zip vs)
  | makeEnum tag variant names, vs => .enum tag variant (names.zip vs)
  | makeArray _, vs => .array vs
  | makeVec _, vs => .vec vs
  | makeTuple _, vs => .tuple vs
  | makeSome, v :: _ => .some v
  | _, _ => .null

end ReadOp

variable {reg : RttiRegistry} {data : List UInt8}

theorem arity_fieldItems {base : Nat} {fields : List RttiField} :
    ∀ op ∈ fieldItems base fields, op.arity = none := by
  intro op hop
  obtain ⟨f, -, rfl⟩ := List.mem_map.mp hop
  rfl

theorem arity_elements {inner : Shape} {base stride n : Nat} :
    ∀ op ∈ elements inner base stride n, op.arity = none := by
  intro op hop
  obtain ⟨i, -, rfl⟩ := List.mem_map.mp hop
  rfl

namespace RttiRegistry.TupleAt

variable {off : Nat} {items : List Shape} {ops : List ReadOp}

theorem length_eq (h : reg.TupleAt off items ops) : ops.length = items.length := by
  induction h with
  | nil off => rfl
  | cons _ _ _ ih => exact congrArg Nat.succ ih

theorem mem (h : reg.TupleAt off items ops) : ∀ op ∈ ops, ∃ item ∈ items, ∃ off, op = .shape item off := by
  induction h with
  | nil off => exact fun op hop => by cases hop
  | cons _ _ _ ih =>
      intro op hop
      rcases List.mem_cons.mp hop with rfl | hop
      · exact ⟨_, List.mem_cons_self, _, rfl⟩
      · obtain ⟨item, hitem, off, rfl⟩ := ih op hop
        exact ⟨item, List.mem_cons_of_mem _ hitem, off, rfl⟩

end RttiRegistry.TupleAt

def schema (reg : RttiRegistry) (data : List UInt8) : Scheme ReadOp Value where
  Unfolds := reg.ReadRule data
  arity := ReadOp.arity
  build := ReadOp.build
  job h := by cases h <;> rfl
  jump h := by cases h <;> rfl
  marked h := by
    cases h with
    | struct _ _ _ => simp [ReadOp.arity, fieldItems]
    | enum _ _ _ _ => simp [ReadOp.arity, fieldItems]
    | some _ => rfl
    | array _ _ => simp [ReadOp.arity, elements]
    | vec _ _ _ _ _ _ _ _ _ => simp [ReadOp.arity, elements]
    | tuple h => rw [ReadOp.arity, h.length_eq]
  children h := by
    cases h with
    | struct _ _ _ => exact arity_fieldItems
    | enum _ _ _ _ => exact arity_fieldItems
    | some _ =>
        intro op hop
        rw [List.mem_singleton.mp hop]
        rfl
    | array _ _ => exact arity_elements
    | vec _ _ _ _ _ _ _ _ _ => exact arity_elements
    | tuple h =>
        intro op hop
        obtain ⟨item, -, off, rfl⟩ := h.mem op hop
        rfl

end BStackRaii
