import BStackRaii.Model.World
/-!
# Growable vectors

`types/compiled/vec.rs`. A vector is a data block and a descriptor of it: in memory only, or also inline in a
field of its owner, where each push that moves the data rewrites it. The vectors of owned, strong and weak
elements store one offset for each element.

Appending within a data block is the work of `BStackByteVec`, of another crate: its calls are a parameter. So is
what the plain additions of a growth come to (`Sums`): one that overflows stops a debug build and wraps in a release
build.
-/

namespace BStackRaii

/-- The header of a data block: its length and its capacity, in bytes. -/
def BYTEVEC_HEADER : Nat := 16

/-- The `BStackByteVec` calls on the block that is given first. `extendFromSlice` tells the block the bytes are
in afterwards. -/
structure ByteVec where
  len : Range → Io Nat
  capacity : Range → Io Nat
  extendFromSlice : Range → List UInt8 → Io Range

/-- `BStack::copy`: `n` bytes from `src` to `dst`, in one atomic step. -/
def copy (k src dst n : Nat) : Io Unit := Prog.durable fun w =>
  if w.Faulty then (.error ioFault, w.tick)
  else if src + n ≤ (w.files k).len ∧ dst + n ≤ (w.files k).len then
    (.ok (), w.tick.store k dst ((w.files k).bytes.read src n))
  else (.error outOfBounds, w.tick)

/-- Whether additions are checked. -/
inductive Build
  | debug
  | release
deriving DecidableEq, Repr

namespace BStackVec

def lengthOverflow : IoError := ⟨.invalidData, "vector length overflow"⟩

/-- Stands for an addition that overflows. -/
def overflowed : IoError := ⟨.other, "attempt to add with overflow"⟩

def checkedAdd (x y : Nat) (e : IoError) : Except IoError Nat := if x + y < 2 ^ 64 then .ok (x + y) else .error e

/-- `x + y`, for the size of a new block and for the offsets in it. -/
structure Sums where
  size : Nat → Nat → Except IoError Nat
  off : Nat → Nat → Except IoError Nat

/-- A size that overflows stops the code. Offsets do not: they lie in a file. -/
def Sums.checked : Sums := ⟨fun x y => checkedAdd x y overflowed, fun x y => .ok (x + y)⟩

/-- `x + y` of 64-bit words. -/
def plus (b : Build) (x y : Nat) : Except IoError Nat :=
  match b with
  | .debug => checkedAdd x y overflowed
  | .release => .ok ((x + y) % 2 ^ 64)

def sums (b : Build) : Sums := ⟨plus b, plus b⟩

/-- `bytevec_image` of no data. -/
def bytevecImage (len cap : Nat) : List UInt8 := leBytes 8 len ++ leBytes 8 cap

end BStackVec

/-- A handle. `writeback` is the inline field of a vector that is not detached. -/
structure BStackVec where
  data : Range
  writeback : Option Range
deriving DecidableEq, Repr

namespace BStackVec

/-- The image of a `VecDesc`. -/
def descriptor (v : BStackVec) : List UInt8 := leBytes 8 v.data.start ++ leBytes 8 v.data.len

/-- Code that works on a handle and on files. -/
abbrev VecIo (α : Type) : Type := Prog IoError (BStackVec × World) α

/-- The handle as it is. -/
def self : VecIo BStackVec := Prog.volatile fun s => (.ok s.1, s)

/-- `VecDesc::read`, as a range. -/
def readDesc (k loc : Nat) : Io Range := do
  let buf ← getInto k loc 16
  pure ⟨leNat (buf.take 8), leNat (buf.drop 8)⟩

section Operations

variable (bv : ByteVec) (a : Allocator)

def persist : VecIo Unit := do
  let v ← self
  match v.writeback with
  | some loc => Prog.onSnd (set a.stack loc.start v.descriptor)
  | none => pure ()

/-- Where a push has put its element. -/
inductive Placed
  | inPlace (data : Range)
  | moved (data old : Range)
deriving DecidableEq, Repr

def Placed.data : Placed → Range
  | inPlace data => data
  | moved data _ => data

/-- `max(cap.saturating_mul(2), new_len)`. -/
def newCapacity (cap newLen : Nat) : Nat := max (min (cap * 2) (2 ^ 64 - 1)) newLen

section Growth

variable (s : Sums)

def copyOld (old new : Range) (len : Nat) : Io Unit :=
  if 0 < len then do
    let src ← Prog.lift (s.off old.start BYTEVEC_HEADER)
    let dst ← Prog.lift (s.off new.start BYTEVEC_HEADER)
    copy a.stack src dst len
  else pure ()

/-- Fill the new block of a growth: its header, the old elements, and the new one. -/
def build (old new : Range) (len newLen newCap : Nat) (value : List UInt8) : Io Unit := do
  set a.stack new.start (bytevecImage newLen newCap)
  copyOld a s old new len
  let elems ← Prog.lift (s.off new.start BYTEVEC_HEADER)
  let off ← Prog.lift (s.off elems len)
  set a.stack off value

/-- Allocate the new block of a growth and fill it. -/
def grow (old : Range) (len newLen newCap : Nat) (value : List UInt8) : Io Range := do
  let size ← Prog.lift (s.size BYTEVEC_HEADER newCap)
  let slice ← alloc a size
  let built ← Prog.attempt (build a s old slice len newLen newCap value)
  match built with
  | .ok () => pure slice
  | .error e => do
      let _ ← Prog.attempt (deallocRange a slice)
      Prog.fail e

/-- The two header words of a data block. -/
def headerWords (r : Range) : Io (Nat × Nat) := do
  let len ← bv.len r
  let cap ← bv.capacity r
  pure (len, cap)

/-- `push_inner` before it changes the handle: the element is in a block, its own or a new one. -/
def place (v : BStackVec) (value : List UInt8) : Io Placed := do
  let (len, cap) ← headerWords bv v.data
  let newLen ← Prog.lift (checkedAdd len value.length lengthOverflow)
  if newLen ≤ cap ∨ v.writeback = none then do
    let data ← bv.extendFromSlice v.data value
    pure (.inPlace data)
  else do
    let slice ← grow a s v.data len newLen (newCapacity cap newLen) value
    pure (.moved slice v.data)

end Growth

/-- The rest of `push_inner`: repoint the descriptor, then free the block that was replaced. -/
def commit (placed : Placed) : VecIo Unit := do
  Prog.onFst fun v => { v with data := placed.data }
  persist a
  match placed with
  | .inPlace _ => pure ()
  | .moved _ old => Prog.onSnd (deallocRange a old)

/-- The start of `push`: a vector in a field takes the lock of its file and reads its descriptor again. -/
def reread : VecIo Unit := do
  let v ← self
  match v.writeback with
  | some loc => do
      let data ← Prog.onSnd (readDesc a.stack loc.start)
      Prog.onFst fun v => { v with data }
  | none => pure ()

/-- A push as far as its element is in a block. -/
def stage (value : List UInt8) : VecIo Placed := do
  reread a
  let v ← self
  Prog.onSnd (place bv a .checked v value)

def push (value : List UInt8) : VecIo Unit := do
  let placed ← stage bv a value
  commit a placed

/-- A push in the build `b`, once the descriptor is read. -/
def pushInner (b : Build) (value : List UInt8) : VecIo Unit := do
  let v ← self
  let placed ← Prog.onSnd (place bv a (sums b) v value)
  commit a placed

/-! ### Vectors of references -/

/-- A push that hands `back` to the caller when it fails. An overflow is not a return. -/
def pushOrReturn {β : Type} (off : UInt64) (back : β) : VecIo (Except (IoError × β) Unit) := do
  let pushed ← Prog.attempt (push bv a (leBytes 8 off.toNat))
  match pushed with
  | .ok () => pure (.ok ())
  | .error e => if e = overflowed then Prog.fail e else pure (.error (e, back))

end Operations

/-- An owned child, by the offset of its block. -/
structure Owned where
  off : UInt64
deriving DecidableEq, Repr

/-- A strong reference: the data block and the control block. -/
structure Rc where
  data : UInt64
  ctrl : UInt64
deriving DecidableEq, Repr

/-- A weak reference: the control block. -/
structure Weak where
  ctrl : UInt64
deriving DecidableEq, Repr

section References

variable (bv : ByteVec) (a : Allocator)

def pushOwned (child : Owned) : VecIo (Except (IoError × Owned) Unit) :=
  pushOrReturn bv a child.off ⟨child.off⟩

def pushStrong (elem : Rc) : VecIo (Except (IoError × Rc) Unit) :=
  pushOrReturn bv a elem.data ⟨elem.data, elem.ctrl⟩

def pushWeak (elem : Weak) : VecIo (Except (IoError × Weak) Unit) :=
  pushOrReturn bv a elem.ctrl ⟨elem.ctrl⟩

end References

end BStackVec

end BStackRaii
