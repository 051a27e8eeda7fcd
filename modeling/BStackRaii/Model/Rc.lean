import BStackRaii.Model.Refcount
import Mathlib.Data.Finset.Card
import Mathlib.Data.Multiset.MapFold
/-!
# Shared blocks with weak references

The `(rc, weak)` half of `types/compiled/rc.rs`. A block of this kind is a data block and a control
block, and the control block holds the strong counter, the weak counter and a pointer to the data
block. Each operation of `BStackRc` and `BStackWeak` is a script of atomic steps.

`Step` interleaves any number of such operations on one object with each other and with whatever
else runs on the file.
-/

namespace BStackRaii

def CTRL_STRONG_OFFSET : Nat := HEADER_SIZE

def CTRL_WEAK_OFFSET : Nat := HEADER_SIZE + 8

def CTRL_DATA_OFFSET : Nat := HEADER_SIZE + 16

def CONTROL_SIZE : Nat := CTRL_DATA_OFFSET + 8

/-- Resolve a counter field from its block. -/
def counterOff (base field : Nat) : Except IoError Nat := do
  fromField (← checkedOff base field)

/-- A strong handle. Its drop core is the pair of ranges. -/
structure BStackRc where
  data : Range
  ctrl : Range
deriving DecidableEq, Repr

structure BStackWeak where
  ctrl : Range
deriving DecidableEq, Repr

/-- What an operation hands back to its caller. -/
inductive Returned
  | strong (h : BStackRc)
  | weak (h : BStackWeak)
  | fields
  | nothing
deriving DecidableEq, Repr

section Operations

variable (a : Allocator)

/-! ### The release paths -/

def releaseWeak (ctrl : Range) : Script IoError World Unit := do
  let weakOff ← .lift (counterOff ctrl.start CTRL_WEAK_OFFSET)
  let prev ← Refcount.fetchSub a.stack weakOff 1
  if prev = 1 then .atom (deallocRange a ctrl) else pure ()

/-- `drop_block`. The children are other blocks, or references to this object that are handles of
their own: their teardown is steps of others, and what is left here is the shell. -/
def dropBlock (range : Range) : Script IoError World Unit := .atom (deallocRange a range)

def strongReleaseCtrl (dataRange ctrlRange : Range) : Script IoError World Unit := do
  let strongOff ← .lift (counterOff ctrlRange.start CTRL_STRONG_OFFSET)
  let prev ← Refcount.fetchSub a.stack strongOff 1
  if prev = 1 then do
    dropBlock a dataRange
    releaseWeak a ctrlRange
  else pure ()

/-- The generated `bstack_move`: read the fields, free the shell. -/
def bstackMove (range : Range) : Script IoError World Unit := do
  let _ ← .atom (getInto a.stack range.start range.len)
  .atom (deallocRange a range)

/-! ### Strong handles -/

namespace BStackRc

variable (h : BStackRc)

def strongOffset : Except IoError Nat := counterOff h.ctrl.start CTRL_STRONG_OFFSET

def tryClone : Script IoError World Returned := do
  let strongOff ← .lift h.strongOffset
  let _ ← Refcount.fetchAdd a.stack strongOff 1
  pure (.strong h)

def downgrade : Script IoError World Returned := do
  let weakOff ← .lift (counterOff h.ctrl.start CTRL_WEAK_OFFSET)
  let _ ← Refcount.fetchAdd a.stack weakOff 1
  pure (.weak ⟨h.ctrl⟩)

/-- The drop of a handle. `AutoDrop` swallows the error this may return. -/
def drop : Script IoError World Returned := do
  strongReleaseCtrl a h.data h.ctrl
  pure .nothing

def tryMove : Script IoError World Returned := do
  let strongOff ← .lift h.strongOffset
  let unwrapped ← Refcount.cas a.stack strongOff 1 0
  if !unwrapped then pure (.strong h)
  else do
    bstackMove a h.data
    let weakOff ← .lift (counterOff h.ctrl.start CTRL_WEAK_OFFSET)
    let prev ← Refcount.fetchSub a.stack weakOff 1
    if prev = 1 then .atom (deallocRange a h.ctrl) else pure ()
    pure .fields

end BStackRc

/-! ### Weak handles -/

namespace BStackWeak

variable (size : Nat) (h : BStackWeak)

def tryClone : Script IoError World Returned := do
  let weakOff ← .lift (counterOff h.ctrl.start CTRL_WEAK_OFFSET)
  let _ ← Refcount.fetchAdd a.stack weakOff 1
  pure (.weak h)

def drop : Script IoError World Returned := do
  releaseWeak a h.ctrl
  pure .nothing

/-- Undo the claim of an upgrade that could not read the forward pointer. -/
def unclaim (strongOff dataPos : Nat) (e : IoError) : Script IoError World Returned := do
  let prev ← Refcount.fetchSub a.stack strongOff 1
  if prev = 1 then do
    let retry ← .attempt (.atom (readU64 a.stack dataPos))
    match retry with
    | .ok x => do
        let _ ← .attempt (strongReleaseCtrl a ⟨x, size⟩ h.ctrl)
        .fail e
    | .error _ => .fail e
  else .fail e

/-- `size` is the size of the payload type. -/
def upgrade : Script IoError World Returned := do
  let strongOff ← .lift (counterOff h.ctrl.start CTRL_STRONG_OFFSET)
  let dataPos ← .lift (checkedOff h.ctrl.start CTRL_DATA_OFFSET)
  let claimed ← Refcount.incrementIfNonzero a.stack strongOff
  match claimed with
  | none => pure .nothing
  | some _ => do
      let read ← .attempt (.atom (readU64 a.stack dataPos))
      match read with
      | .ok x => pure (.strong ⟨⟨x, size⟩, h.ctrl⟩)
      | .error e => unclaim a size h strongOff dataPos e

end BStackWeak

end Operations

/-! ### Interleaved operations on one object -/

inductive RcOp
  | tryClone
  | downgrade
  | drop
  | tryMove
deriving DecidableEq, Repr

namespace RcOp

/-- Operations by reference borrow their handle until they return, the others consume it. -/
def borrows : RcOp → Bool
  | tryClone | downgrade => true
  | drop | tryMove => false

def code (a : Allocator) (h : BStackRc) : RcOp → Script IoError World Returned
  | tryClone => h.tryClone a
  | downgrade => h.downgrade a
  | drop => h.drop a
  | tryMove => h.tryMove a

end RcOp

inductive WeakOp
  | tryClone
  | upgrade
  | drop
deriving DecidableEq, Repr

namespace WeakOp

def borrows : WeakOp → Bool
  | tryClone | upgrade => true
  | drop => false

def code (a : Allocator) (size : Nat) (h : BStackWeak) : WeakOp → Script IoError World Returned
  | tryClone => h.tryClone a
  | upgrade => h.upgrade a size
  | drop => h.drop a

end WeakOp

/-- A call in flight: the handle it borrows, and what it has left to do. -/
structure Call where
  lent : Option Nat
  code : Script IoError World Returned

/-- The handles of one object, named by numbers, the calls in flight, the blocks these calls have
freed so far, and the number of times the fields were handed out. -/
structure Sharing where
  world : World
  strong : Finset (Nat × BStackRc)
  weak : Finset (Nat × BStackWeak)
  calls : Multiset Call
  freed : List (Nat × Range)
  moved : Nat

namespace Sharing

/-- Give back what a call returned, under a new name `id`. -/
def deliver (s : Sharing) (id : Nat) : Except IoError Returned → Sharing
  | .ok (.strong h) => { s with strong := insert (id, h) s.strong }
  | .ok (.weak h) => { s with weak := insert (id, h) s.weak }
  | .ok .fields => { s with moved := s.moved + 1 }
  | .ok .nothing => s
  | .error _ => s

def Unused (s : Sharing) (id : Nat) : Prop :=
  (∀ h, (id, h) ∉ s.strong) ∧ ∀ h, (id, h) ∉ s.weak

def Borrowed (s : Sharing) (id : Nat) : Prop := ∃ t ∈ s.calls, t.lent = some id

end Sharing

/-- The frees that happened between two states. -/
def newlyFreed (w w' : World) : List (Nat × Range) := w'.freed.drop w.freed.length

/-- Other code on the file leaves the two blocks of `o` alone until calls on `o` have freed them. -/
structure LeavesAlone (k : Nat) (o : BStackRc) (s : Sharing) (w : World) : Prop where
  quiet : w.Quiet
  keeps : ∀ r, r = o.data ∨ r = o.ctrl → (k, r) ∉ s.freed → r ∈ (s.world.files k).live →
    r ∈ (w.files k).live
  bytes : (k, o.ctrl) ∉ s.freed → ∀ i, o.ctrl.start ≤ i → i < o.ctrl.stop →
    (w.files k).bytes i = (s.world.files k).bytes i

/-- One step of an object `o`: a call starts, makes an atomic step or returns, or other code runs. -/
inductive Step (a : Allocator) (o : BStackRc) : Sharing → Sharing → Prop
  | callStrong {s : Sharing} (op : RcOp) (id : Nat) (h : BStackRc) (hmem : (id, h) ∈ s.strong)
      (hfree : op.borrows = false → ¬ s.Borrowed id) :
      Step a o s { s with
        strong := if op.borrows then s.strong else s.strong.erase (id, h)
        calls := ⟨if op.borrows then some id else none, op.code a h⟩ ::ₘ s.calls }
  | callWeak {s : Sharing} (op : WeakOp) (id : Nat) (h : BStackWeak) (hmem : (id, h) ∈ s.weak)
      (hfree : op.borrows = false → ¬ s.Borrowed id) :
      Step a o s { s with
        weak := if op.borrows then s.weak else s.weak.erase (id, h)
        calls := ⟨if op.borrows then some id else none, op.code a o.data.len h⟩ ::ₘ s.calls }
  | atomic {s : Sharing} {β : Type} (lent : Option Nat) (c : Io β)
      (k : Except IoError β → Script IoError World Returned) (rest : Multiset Call)
      (hcalls : s.calls = ⟨lent, .step c k⟩ ::ₘ rest) :
      Step a o s { s with
        world := (c s.world).final
        calls := ⟨lent, k (c s.world).out⟩ ::ₘ rest
        freed := s.freed ++ newlyFreed s.world (c s.world).final }
  | returns {s : Sharing} (lent : Option Nat) (out : Except IoError Returned)
      (rest : Multiset Call) (hcalls : s.calls = ⟨lent, .done out⟩ ::ₘ rest) (id : Nat)
      (hid : s.Unused id) :
      Step a o s ({ s with calls := rest }.deliver id out)
  | elsewhere {s : Sharing} (w : World) (h : LeavesAlone a.stack o s w) :
      Step a o s { s with world := w }

/-! ### Upgrades whose read of the forward pointer fails -/

/-- The next I/O step fails, and no other. -/
def World.failing (w : World) : World := { w with faults := [true] }

/-- Where an upgrade stands that claimed a strong count and could not read the forward pointer.
`releasing` runs the two-phase release with the pointer that the second read gave. -/
inductive Undo : Type 1
  | claimed
  | retrying
  | releasing (code : Script IoError World Returned)
  | failed (e : IoError)

namespace Undo

variable (a : Allocator) (o : BStackRc)

/-- The release of the block at `x`, whose error is discarded. -/
def releaseCode (x : Nat) : Script IoError World Returned := do
  let _ ← .attempt (strongReleaseCtrl a ⟨x, o.data.len⟩ o.ctrl)
  .fail ioFault

def code : Undo → Script IoError World Returned
  | claimed => BStackWeak.unclaim a o.data.len ⟨o.ctrl⟩ (o.ctrl.start + CTRL_STRONG_OFFSET)
      (o.ctrl.start + CTRL_DATA_OFFSET) ioFault
  | retrying => do
      let retry ← .attempt (.atom (readU64 a.stack (o.ctrl.start + CTRL_DATA_OFFSET)))
      match retry with
      | .ok x => releaseCode a o x
      | .error _ => .fail ioFault
  | releasing p => p
  | failed e => .fail e

/-- The next atomic step. -/
def next : Undo → World → Undo × World
  | claimed, w =>
      let r := process a.stack (o.ctrl.start + CTRL_STRONG_OFFSET)
        (o.ctrl.start + CTRL_STRONG_OFFSET + 8) (Refcount.subCounter 1) w
      match r.out with
      | .ok (prev, false) => (if prev = 1 then retrying else failed ioFault, r.final)
      | .ok (_, true) => (failed Refcount.underflowErr, r.final)
      | .error e => (failed e, r.final)
  | retrying, w =>
      let r := readU64 a.stack (o.ctrl.start + CTRL_DATA_OFFSET) w
      match r.out with
      | .ok x => (releasing (releaseCode a o x), r.final)
      | .error _ => (failed ioFault, r.final)
  | releasing p, w => (releasing (p.advance w).1, (p.advance w).2)
  | failed e, w => (failed e, w)

end Undo

/-- Operations on one object, the upgrades that are being undone, and how many of them could not read
the pointer a second time. -/
structure Upgrading where
  base : Sharing
  undoing : Multiset Undo
  leaked : Nat

/-- The atomic step of an undone upgrade in the world `w`. -/
def Upgrading.undo (a : Allocator) (o : BStackRc) (s : Upgrading) (u : Undo) (rest : Multiset Undo)
    (w : World) : Upgrading :=
  { s with
    base := { s.base with
      world := (u.next a o w).2
      freed := s.base.freed ++ newlyFreed s.base.world (u.next a o w).2 }
    undoing := (u.next a o w).1 ::ₘ rest }

/-- One step of an object where the read of an upgrade may fail: a step as before, the failing read, a
step of the upgrade that gives its claim back, that decrement or the second read failing too, or its return. -/
inductive Upgrading.Step (a : Allocator) (o : BStackRc) : Upgrading → Upgrading → Prop
  | base {s : Upgrading} {b : Sharing} (h : BStackRaii.Step a o s.base b) : Step a o s { s with base := b }
  | readFails {s : Upgrading} (lent : Option Nat) (k : Except IoError Nat → Script IoError World Returned)
      (rest : Multiset Call)
      (hcalls : s.base.calls =
        ⟨lent, .step (readU64 a.stack (o.ctrl.start + CTRL_DATA_OFFSET)) k⟩ ::ₘ rest)
      (hk : k (.error ioFault) = Undo.claimed.code a o) :
      Step a o s { s with
        base := { s.base with calls := rest }
        undoing := .claimed ::ₘ s.undoing }
  | undo {s : Upgrading} (u : Undo) (rest : Multiset Undo) (hundo : s.undoing = u ::ₘ rest) :
      Step a o s (s.undo a o u rest s.base.world)
  | unclaimFails {s : Upgrading} (rest : Multiset Undo) (hundo : s.undoing = .claimed ::ₘ rest) :
      Step a o s (s.undo a o .claimed rest s.base.world.failing)
  | retryFails {s : Upgrading} (rest : Multiset Undo) (hundo : s.undoing = .retrying ::ₘ rest) :
      Step a o s { s.undo a o .retrying rest s.base.world.failing with leaked := s.leaked + 1 }
  | returns {s : Upgrading} (u : Undo) (rest : Multiset Undo) (hundo : s.undoing = u ::ₘ rest)
      (out : Except IoError Returned) (hdone : u.code a o = .done out) :
      Step a o s { s with undoing := rest }

/-- The step is a second read that succeeds: the upgrade gave back the last strong count, and the
file gives it the pointer this time. -/
def Upgrading.Rereads (a : Allocator) (o : BStackRc) (s s' : Upgrading) : Prop :=
  ∃ rest, s.undoing = .retrying ::ₘ rest ∧ s' = s.undo a o .retrying rest s.base.world

/-- The step is a decrement that fails: the upgrade returns and its claim stays in the strong counter. -/
def Upgrading.Orphans (a : Allocator) (o : BStackRc) (s s' : Upgrading) : Prop :=
  ∃ rest, s.undoing = .claimed ::ₘ rest ∧ s' = s.undo a o .claimed rest s.base.world.failing

/-- A new object: both blocks allocated, both counters at one, and one strong handle. -/
structure Created (a : Allocator) (o : BStackRc) (s : Sharing) : Prop where
  quiet : s.world.Quiet
  data : o.data ∈ (s.world.files a.stack).live
  ctrl : o.ctrl ∈ (s.world.files a.stack).live
  distinct : o.data ≠ o.ctrl
  size : o.ctrl.len = CONTROL_SIZE
  strong_one : (s.world.files a.stack).bytes.word (o.ctrl.start + CTRL_STRONG_OFFSET) = 1
  weak_one : (s.world.files a.stack).bytes.word (o.ctrl.start + CTRL_WEAK_OFFSET) = 1
  forward : (s.world.files a.stack).bytes.word (o.ctrl.start + CTRL_DATA_OFFSET) = o.data.start
  handle : s.strong = {(0, o)}
  no_weak : s.weak = ∅
  idle : s.calls = 0
  none_freed : s.freed = []
  none_moved : s.moved = 0

end BStackRaii
