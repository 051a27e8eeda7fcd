import BStackRaii.Model.Schema
/-!
# The schema registry

`rtti/registry.rs`. The schema stack is a byte array that grows by whole records. A registry is the
open stack with the records its scan found. An operation that fails leaves it as it was, so the
states of a registry are those its successful operations lead through.
-/

namespace BStackRaii

/-- A type's position in the stack. -/
abbrev RttiOrdinal := UInt32

def RECORD_HEADER_LEN : Nat := 16

/-- A scanned record: its tag, where its header begins, and the length of its body. -/
structure RecordRef where
  tag : EightCC
  offset : Nat
  bodyLen : UInt32
deriving DecidableEq, Repr

structure RttiRegistry where
  stack : List UInt8
  records : List RecordRef
  byTag : EightCC → Option RttiOrdinal

def RttiError.ofIo (e : IoError) : RttiError := ⟨.io e.kind, e.msg⟩

/-- `BStack::get_into` on the schema stack. -/
def stackGet (stack : List UInt8) (off n : Nat) : RttiResult (List UInt8) :=
  if off + n ≤ stack.length then .ok ((stack.drop off).take n) else .error (.ofIo outOfBounds)

/-- `BStack::set` on the schema stack. -/
def stackSet (stack : List UInt8) (off : Nat) (data : List UInt8) : RttiResult (List UInt8) :=
  if off + data.length ≤ stack.length then
    .ok (stack.take off ++ data ++ stack.drop (off + data.length))
  else .error (.ofIo outOfBounds)

def unknownTag : RttiError :=
  ⟨.unregisteredTag, "RTTI pointer/field references an unregistered type tag"⟩

namespace RttiRegistry

/-- Record one scanned or appended entry. -/
def index (reg : RttiRegistry) (tag : EightCC) (offset : Nat) (bodyLen : UInt32) :
    RttiResult (RttiOrdinal × RttiRegistry) :=
  let ordinal := UInt32.ofNat reg.records.length
  match reg.byTag tag with
  | some _ => .error ⟨.malformed, "duplicate RTTI eightcc — two types share one tag"⟩
  | none => .ok (ordinal, { reg with
      records := reg.records ++ [⟨tag, offset, bodyLen⟩]
      byTag := Function.update reg.byTag tag (some ordinal) })

theorem index_stack {reg reg' : RttiRegistry} {tag : EightCC} {offset : Nat} {bodyLen : UInt32}
    {ord : RttiOrdinal} (h : reg.index tag offset bodyLen = .ok (ord, reg')) :
    reg'.stack = reg.stack := by
  unfold index at h
  split at h <;> cases h
  rfl

/-- Walk the stack from `off` to its end. -/
def scan (reg : RttiRegistry) (off : Nat) : RttiResult RttiRegistry :=
  if off < reg.stack.length then
    match stackGet reg.stack off RECORD_HEADER_LEN with
    | .error e => .error e
    | .ok header =>
        let tag := EightCC.ofBytes (header.take 8)
        let bodyLen := UInt32.ofNat (leNat ((header.drop 8).take 4))
        if RECORD_HEADER_LEN + bodyLen.toNat > reg.stack.length - off then
          .error ⟨.malformed, "RTTI record body length runs past the end of the schema stack"⟩
        else
          match _hindex : reg.index tag off bodyLen with
          | .error e => .error e
          | .ok (_, reg') => scan reg' (off + alignUp (RECORD_HEADER_LEN + bodyLen.toNat) 8)
  else .ok reg
termination_by reg.stack.length - off
decreasing_by
  have hstack := index_stack _hindex
  have hle := le_alignUp (by decide : 0 < 8) (RECORD_HEADER_LEN + bodyLen.toNat)
  have hheader : 0 < RECORD_HEADER_LEN := by decide
  show reg'.stack.length - (off + alignUp (RECORD_HEADER_LEN + bodyLen.toNat) 8) < _
  rw [hstack]
  omega

def «open» (stack : List UInt8) : RttiResult RttiRegistry :=
  scan ⟨stack, [], fun _ => none⟩ 0

def append (reg : RttiRegistry) (ty : RttiType) : RttiResult (RttiOrdinal × RttiRegistry) :=
  match reg.byTag ty.tag with
  | some _ => .error ⟨.malformed, "duplicate RTTI eightcc — type already registered"⟩
  | none => do
      let body ← encodeType ty
      let (record, bodyLen) ← frameRecord ty.tag body
      let offset := reg.stack.length
      index { reg with stack := reg.stack ++ record } ty.tag offset bodyLen

def len (reg : RttiRegistry) : Nat := reg.records.length

def ordinalOf (reg : RttiRegistry) (tag : EightCC) : Option RttiOrdinal := reg.byTag tag

def tagOf (reg : RttiRegistry) (ordinal : RttiOrdinal) : Option EightCC :=
  reg.records[ordinal.toNat]?.map (·.tag)

def loadType (reg : RttiRegistry) (ordinal : RttiOrdinal) : RttiResult RttiType :=
  match reg.records[ordinal.toNat]? with
  | none => .error ⟨.ordinalRange, "RTTI ordinal out of range"⟩
  | some rec => do
      let body ← stackGet reg.stack (rec.offset + RECORD_HEADER_LEN) rec.bodyLen.toNat
      decodeType rec.tag body

def collisionNames (prev name : String) : RttiError :=
  ⟨.collision, "RTTI eightcc collision: '" ++ prev ++ "' and '" ++ name ++ "' hash to one tag"⟩

def collisionLayouts (name : String) : RttiError :=
  ⟨.collision, "RTTI eightcc collision: two distinct types both named '" ++ name ++
    "' (same-named types in different modules?) share one tag"⟩

def collisionOnDisk (existing name : String) : RttiError :=
  ⟨.collision, "RTTI eightcc collision: on-disk '" ++ existing ++ "' vs compiled '" ++ name ++ "' share one tag"⟩

def schemaMismatch (name : String) : RttiError :=
  ⟨.schemaMismatch, "RTTI schema mismatch for '" ++ name ++ "': the persisted layout differs from the compiled " ++
    "type (a field was added, removed, reordered, or resized). The on-disk data was written against the old layout."⟩

/-- `sync_compiled` over the rest of `RTTI_TYPES`, with the types seen and the number appended so far. What it
appended before it fails stays. -/
def syncFrom (reg : RttiRegistry) (seen : EightCC → Option RttiType) (appended : Nat) :
    List RttiType → RttiResult Nat × RttiRegistry
  | [] => (.ok appended, reg)
  | ty :: rest =>
      match seen ty.tag with
      | some prev =>
          if prev.name ≠ ty.name then (.error (collisionNames prev.name ty.name), reg)
          else if !layoutsMatch prev ty then (.error (collisionLayouts ty.name), reg)
          else syncFrom reg seen appended rest
      | none =>
          let seen := Function.update seen ty.tag (some ty)
          match reg.ordinalOf ty.tag with
          | some ord =>
              match reg.loadType ord with
              | .error e => (.error e, reg)
              | .ok existing =>
                  if existing.name ≠ ty.name then (.error (collisionOnDisk existing.name ty.name), reg)
                  else if !layoutsMatch existing ty then (.error (schemaMismatch ty.name), reg)
                  else syncFrom reg seen appended rest
          | none =>
              match reg.append ty with
              | .error e => (.error e, reg)
              | .ok (_, reg') => syncFrom reg' seen (appended + 1) rest

/-- `types` stands for what `RTTI_TYPES` builds. -/
def syncCompiled (reg : RttiRegistry) (types : List RttiType) : RttiResult Nat × RttiRegistry :=
  syncFrom reg (fun _ => none) 0 types

/-- The value slot of a class variable: its offset in the stack, its length and whether it is
mutable. -/
def locateClassValue (reg : RttiRegistry) (tag : EightCC) (name : String) :
    RttiResult (Nat × Nat × Bool) :=
  match reg.ordinalOf tag with
  | none => .error unknownTag
  | some ord =>
      match reg.records[ord.toNat]? with
      -- The source indexes, and would panic.
      | none => .error ⟨.ordinalRange, "index out of bounds"⟩
      | some rec => do
          let body ← stackGet reg.stack (rec.offset + RECORD_HEADER_LEN) rec.bodyLen.toNat
          match ← classValueSlot body name with
          | none => .error ⟨.classVar, "RTTI class variable: no class variable named `" ++ name ++ "`"⟩
          | some (pos, len, mutable) => .ok (rec.offset + RECORD_HEADER_LEN + pos, len, mutable)

def classValue (reg : RttiRegistry) (tag : EightCC) (name : String) : RttiResult (List UInt8) := do
  let (off, len, _) ← reg.locateClassValue tag name
  stackGet reg.stack off len

def setClassValue (reg : RttiRegistry) (tag : EightCC) (name : String) (value : List UInt8) :
    RttiResult RttiRegistry := do
  let (off, len, mutable) ← reg.locateClassValue tag name
  if !mutable then
    .error ⟨.classVar, "RTTI class variable: `" ++ name ++ "` is a const class variable; only a " ++
      "`#[bstack_mut]` one is settable"⟩
  else if value.length ≠ len then
    .error ⟨.classVar, "RTTI class variable: class variable `" ++ name ++ "` is " ++ toString len ++
      " bytes, got " ++ toString value.length⟩
  else do
    let stack ← stackSet reg.stack off value
    .ok { reg with stack }

end RttiRegistry

end BStackRaii
