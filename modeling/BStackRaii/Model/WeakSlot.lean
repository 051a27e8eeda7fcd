import BStackRaii.Model.Rc
import BStackRaii.Model.Teardown
import Mathlib.Logic.Relation
/-!
# Slots that hold a weak reference

A weak field, an element of a weak vector and a weak variant of an enum all store the offset of a
control block and own one weak count of it. Their accessors are the scripts below: `set_weak_field` and
`upgrade_weak_field` of `types/compiled/rc.rs`, `BStackWeakVec::upgrade` of `types/compiled/vec.rs`, and the
generated `read` and `replace` of an enum (`derive/src/enum_.rs`, `derive/src/emit.rs`).

`Phase` names the points such a call can stand at, and `Step` interleaves any number of them on any number
of objects with the drops of other handles. The two field accessors run under the lock of the file.
-/

namespace BStackRaii

/-- `BStack::swap`: write, and hand out what was there. -/
def swap (k off : Nat) (data : List UInt8) : Io (List UInt8) := Prog.durable fun w =>
  if w.Faulty then (.error ioFault, w.tick)
  else if off + data.length ≤ (w.files k).len then
    (.ok ((w.files k).bytes.read off data.length), w.tick.store k off data)
  else (.error outOfBounds, w.tick)

namespace WeakSlot

/-! ### Enums -/

/-- A variant: the size of its target if it is weak. The payloads of the others are plain bytes here. -/
inductive Variant
  | weak (size : Nat)
  | other
deriving DecidableEq, Repr

/-- A generated enum: its tag, the widths of its discriminant and of its payload, and its variants. -/
structure EnumType where
  tag : List UInt8
  discLen : Nat
  payloadLen : Nat
  variants : Nat → Option Variant

/-- The in-memory value of an enum. -/
inductive Value
  | weak (disc : Nat) (h : BStackWeak)
  | other (disc : Nat) (payload : List UInt8)
deriving DecidableEq, Repr

namespace Value

def disc : Value → Nat
  | weak disc _ | other disc _ => disc

/-- The arms of `new`: what the payload area holds. -/
def payload (payloadLen : Nat) : Value → List UInt8
  | weak _ h => leBytes 8 h.ctrl.start ++ List.replicate (payloadLen - 8) 0
  | other _ payload => payload

end Value

namespace EnumType

variable (e : EnumType)

def size : Nat := HEADER_SIZE + e.discLen + e.payloadLen

/-- The on-disk record of a value. -/
def image (v : Value) : List UInt8 :=
  leBytes 8 e.size ++ e.tag ++ leBytes e.discLen v.disc ++ v.payload e.payloadLen

def discOf (record : List UInt8) : Nat := leNat ((record.drop HEADER_SIZE).take e.discLen)

def payloadOf (record : List UInt8) : List UInt8 := record.drop (HEADER_SIZE + e.discLen)

/-- The control block that a weak payload names. -/
def ctrlOf (record : List UInt8) : Range := ⟨leNat ((e.payloadOf record).take 8), CONTROL_SIZE⟩

/-- The arms of `bstack_move`: a record back into the value it was made of. -/
def reconstruct (record : List UInt8) : Except IoError Value :=
  match e.variants (e.discOf record) with
  | some (.weak _) => .ok (.weak (e.discOf record) ⟨e.ctrlOf record⟩)
  | some .other => .ok (.other (e.discOf record) (e.payloadOf record))
  | none => .error invalidDiscriminant

end EnumType

/-! ### The accessors -/

/-- What an accessor hands back. `lost` and the two before it are the cases of `ReplaceError`, `viewed` is the
view of a variant that is not weak. -/
inductive Handed
  | nothing
  | strong (h : BStackRc)
  | viewed (disc : Nat) (payload : List UInt8)
  | value (v : Value)
  | recovered (e : IoError) (h : BStackWeak)
  | recoveredValue (e : IoError) (v : Value)
  | lost (e : IoError)
deriving DecidableEq, Repr

/-- The result of an upgrade. -/
def Handed.ofReturned : Returned → Handed
  | .strong h => strong h
  | .weak _ | .fields | .nothing => nothing

section Scripts

variable (a : Allocator)

/-- Under the lock of the file. -/
def setWeakField (fieldOff : Nat) (newWeak : BStackWeak) : Script IoError World Handed := do
  let swapped ← .attempt (.atom (swap a.stack fieldOff (leBytes 8 newWeak.ctrl.start)))
  match swapped with
  | .error e => pure (.recovered e ⟨⟨newWeak.ctrl.start, CONTROL_SIZE⟩⟩)
  | .ok old =>
      if leNat old = 0 then pure .nothing
      else do
        let released ← .attempt (releaseWeak a ⟨leNat old, CONTROL_SIZE⟩)
        match released with
        | .ok () => pure .nothing
        | .error e => pure (.lost e)

/-- Upgrade a temporary over `ctrl` and consume it with `into_raw`, whatever came of it. -/
def borrowUpgrade (size : Nat) (ctrl : Range) : Script IoError World Handed := do
  let result ← .attempt (BStackWeak.upgrade a size ⟨ctrl⟩)
  .lift (result.map Handed.ofReturned)

/-- Under the lock of the file. -/
def upgradeWeakField (size fieldOff : Nat) : Script IoError World Handed := do
  let off ← .atom (readU64 a.stack fieldOff)
  if off = 0 then pure .nothing else borrowUpgrade a size ⟨off, CONTROL_SIZE⟩

/-- `BStackWeakVec::upgrade`. `to_vec` reads the elements, which lie in `contents`. -/
def upgradeElement (size : Nat) (contents : Range) (i : Nat) : Script IoError World Handed := do
  let bytes ← .atom (getInto a.stack contents.start contents.len)
  if 8 * i + 8 ≤ bytes.length then borrowUpgrade a size ⟨leNat ((bytes.drop (8 * i)).take 8), CONTROL_SIZE⟩
  else pure .nothing

/-- The read arm of a weak variant: the `?` behind the upgrade leaves the temporary to its drop, which
swallows its error. -/
def readArm (size : Nat) (ctrl : Range) : Script IoError World Handed := do
  let upgraded ← .attempt (BStackWeak.upgrade a size ⟨ctrl⟩)
  match upgraded with
  | .ok r => pure (Handed.ofReturned r)
  | .error e => do
      let _ ← .attempt (releaseWeak a ctrl)
      .fail e

/-- The generated `read`. -/
def EnumType.read (e : EnumType) (start : Nat) : Script IoError World Handed := do
  let record ← .atom (getInto a.stack start e.size)
  match e.variants (e.discOf record) with
  | some (.weak size) => readArm a size (e.ctrlOf record)
  | some .other => pure (.viewed (e.discOf record) (e.payloadOf record))
  | none => .fail invalidDiscriminant

/-- The generated `replace`. -/
def EnumType.replace (e : EnumType) (start : Nat) (data : Value) : Script IoError World Handed := do
  let swapped ← .attempt (.atom (swap a.stack start (e.image data)))
  match swapped with
  | .error err => pure (.recoveredValue err data)
  | .ok old =>
      match e.reconstruct old with
      | .ok v => pure (.value v)
      | .error err => pure (.lost err)

end Scripts

/-! ### Slots -/

/-- Where a weak reference is stored, and the size of its target. -/
inductive Slot
  | field (off size : Nat)
  | element (contents : Range) (i size : Nat)
  | variant (e : EnumType) (start : Nat)

namespace Slot

/-- The bytes of the slot itself. -/
def range : Slot → Range
  | field off _ => ⟨off, 8⟩
  | element contents i _ => ⟨contents.start + 8 * i, 8⟩
  | variant e start => ⟨start, e.size⟩

/-- The control block they name, and the size of the target. -/
def names : Slot → List UInt8 → Option (Range × Nat)
  | field _ size, bytes => if leNat bytes = 0 then none else some (⟨leNat bytes, CONTROL_SIZE⟩, size)
  | element _ _ size, bytes => some (⟨leNat bytes, CONTROL_SIZE⟩, size)
  | variant e _, bytes =>
      match e.variants (e.discOf bytes) with
      | some (.weak size) => some (e.ctrlOf bytes, size)
      | _ => none

def target (σ : Slot) (f : File) : Option (Range × Nat) := σ.names (f.bytes.read σ.range.start σ.range.len)

/-- What the accessor reads: a vector reads all of its elements. -/
def fetched : Slot → Range
  | field off _ => ⟨off, 8⟩
  | element contents _ _ => contents
  | variant e start => ⟨start, e.size⟩

/-- What it makes of that: a control block to upgrade, or its result. -/
def decode : Slot → List UInt8 → Except (Except IoError Handed) (Range × Nat)
  | field _ size, bytes =>
      if leNat bytes = 0 then .error (.ok .nothing) else .ok (⟨leNat bytes, CONTROL_SIZE⟩, size)
  | element _ i size, bytes =>
      if 8 * i + 8 ≤ bytes.length then .ok (⟨leNat ((bytes.drop (8 * i)).take 8), CONTROL_SIZE⟩, size)
      else .error (.ok .nothing)
  | variant e _, bytes =>
      match e.variants (e.discOf bytes) with
      | some (.weak size) => .ok (e.ctrlOf bytes, size)
      | some .other => .error (.ok (.viewed (e.discOf bytes) (e.payloadOf bytes)))
      | none => .error (.error invalidDiscriminant)

/-- The accessor that upgrades the slot. -/
def upgrade (a : Allocator) : Slot → Script IoError World Handed
  | field off size => upgradeWeakField a size off
  | element contents i size => upgradeElement a size contents i
  | variant e start => e.read a start

def Locks : Slot → Prop
  | field _ _ => True
  | element _ _ _ | variant _ _ => False

instance (σ : Slot) : Decidable σ.Locks :=
  match σ with
  | field _ _ => .isTrue trivial
  | element _ _ _ | variant _ _ => .isFalse id

def IsVariant : Slot → Prop
  | variant _ _ => True
  | field _ _ | element _ _ _ => False

end Slot

/-! ### Calls -/

/-- Who gives up a weak count: a handle that is dropped, `set_weak_field`, or the temporary of an enum read
whose upgrade failed with `e`. -/
inductive Payer
  | handle
  | setter
  | temporary (e : IoError)
deriving DecidableEq, Repr

/-- What the call returns once the release is over. -/
def Payer.finish : Payer → Except IoError Unit → Except IoError Handed
  | handle, out => out.map fun _ => .nothing
  | setter, .ok () => .ok .nothing
  | setter, .error e => .ok (.lost e)
  | temporary e, _ => .error e

/-- Where a call stands. The phases from `load` on are an upgrade of `ctrl`, read from the slot. -/
inductive Phase : Type 1
  | set (off size : Nat) (new : BStackWeak)
  | replace (e : EnumType) (start : Nat) (new : Value)
  | locate (σ : Slot)
  | load (σ : Slot) (ctrl : Range) (size : Nat)
  | bump (σ : Slot) (ctrl : Range) (size : Nat)
  | forward (σ : Slot) (ctrl : Range) (size : Nat)
  | unclaim (σ : Slot) (ctrl : Range) (size : Nat) (e : IoError)
  | retry (σ : Slot) (ctrl : Range) (size : Nat) (e : IoError)
  | releasing (σ : Slot) (ctrl : Range) (code : Script IoError World Unit) (e : IoError)
  | dropStrong (h : BStackRc)
  | freeData (h : BStackRc)
  | payWeak (ctrl : Range) (payer : Payer)
  | freeCtrl (ctrl : Range) (payer : Payer)
  | done (out : Except IoError Handed)

namespace Phase

/-- An upgrade is over: the arm of an enum passes an error on and drops its temporary. -/
def settle (σ : Slot) (ctrl : Range) (out : Except IoError Handed) : Phase :=
  match σ, out with
  | .variant _ _, .error e => payWeak ctrl (.temporary e)
  | _, out => done out

variable (a : Allocator)

/-- The next atomic step. -/
def next : Phase → World → Phase × World
  | set off _ new, w =>
      let r := swap a.stack off (leBytes 8 new.ctrl.start) w
      match r.out with
      | .error e => (done (.ok (.recovered e ⟨⟨new.ctrl.start, CONTROL_SIZE⟩⟩)), r.final)
      | .ok old =>
          (if leNat old = 0 then done (.ok .nothing) else payWeak ⟨leNat old, CONTROL_SIZE⟩ .setter, r.final)
  | replace e start new, w =>
      let r := swap a.stack start (e.image new) w
      match r.out with
      | .error err => (done (.ok (.recoveredValue err new)), r.final)
      | .ok old =>
          match e.reconstruct old with
          | .ok v => (done (.ok (.value v)), r.final)
          | .error err => (done (.ok (.lost err)), r.final)
  | locate σ, w =>
      let r := getInto a.stack σ.fetched.start σ.fetched.len w
      match r.out with
      | .error e => (done (.error e), r.final)
      | .ok bytes =>
          match σ.decode bytes with
          | .ok (ctrl, size) => (load σ ctrl size, r.final)
          | .error out => (done out, r.final)
  | load σ ctrl size, w =>
      let r := readU64 a.stack (ctrl.start + CTRL_STRONG_OFFSET) w
      match r.out with
      | .ok cur => (if cur = 0 then done (.ok .nothing) else bump σ ctrl size, r.final)
      | .error e => (settle σ ctrl (.error e), r.final)
  | bump σ ctrl size, w =>
      let r := process a.stack (ctrl.start + CTRL_STRONG_OFFSET) (ctrl.start + CTRL_STRONG_OFFSET + 8)
        Refcount.bumpCounter w
      match r.out with
      | .ok (some _, false) => (forward σ ctrl size, r.final)
      | .ok (none, false) => (done (.ok .nothing), r.final)
      | .ok (_, true) => (settle σ ctrl (.error Refcount.overflowErr), r.final)
      | .error e => (settle σ ctrl (.error e), r.final)
  | forward σ ctrl size, w =>
      let r := readU64 a.stack (ctrl.start + CTRL_DATA_OFFSET) w
      match r.out with
      | .ok x => (done (.ok (.strong ⟨⟨x, size⟩, ctrl⟩)), r.final)
      | .error e => (unclaim σ ctrl size e, r.final)
  | unclaim σ ctrl size e, w =>
      let r := process a.stack (ctrl.start + CTRL_STRONG_OFFSET) (ctrl.start + CTRL_STRONG_OFFSET + 8)
        (Refcount.subCounter 1) w
      match r.out with
      | .ok (prev, false) => (if prev = 1 then retry σ ctrl size e else settle σ ctrl (.error e), r.final)
      | .ok (_, true) => (settle σ ctrl (.error Refcount.underflowErr), r.final)
      | .error e' => (settle σ ctrl (.error e'), r.final)
  | retry σ ctrl size e, w =>
      let r := readU64 a.stack (ctrl.start + CTRL_DATA_OFFSET) w
      match r.out with
      | .ok x => (releasing σ ctrl (strongReleaseCtrl a ⟨x, size⟩ ctrl) e, r.final)
      | .error _ => (settle σ ctrl (.error e), r.final)
  | releasing σ ctrl code e, w =>
      let r := code.advance w
      match r.1 with
      | .done _ => (settle σ ctrl (.error e), r.2)
      | .step c k => (releasing σ ctrl (.step c k) e, r.2)
  | dropStrong h, w =>
      let r := process a.stack (h.ctrl.start + CTRL_STRONG_OFFSET) (h.ctrl.start + CTRL_STRONG_OFFSET + 8)
        (Refcount.subCounter 1) w
      match r.out with
      | .ok (prev, false) => (if prev = 1 then freeData h else done (.ok .nothing), r.final)
      | .ok (_, true) => (done (.error Refcount.underflowErr), r.final)
      | .error e => (done (.error e), r.final)
  | freeData h, w =>
      let r := deallocRange a h.data w
      match r.out with
      | .ok () => (payWeak h.ctrl .handle, r.final)
      | .error e => (done (.error e), r.final)
  | payWeak ctrl payer, w =>
      let r := process a.stack (ctrl.start + CTRL_WEAK_OFFSET) (ctrl.start + CTRL_WEAK_OFFSET + 8)
        (Refcount.subCounter 1) w
      match r.out with
      | .ok (prev, false) => (if prev = 1 then freeCtrl ctrl payer else done (payer.finish (.ok ())), r.final)
      | .ok (_, true) => (done (payer.finish (.error Refcount.underflowErr)), r.final)
      | .error e => (done (payer.finish (.error e)), r.final)
  | freeCtrl ctrl payer, w =>
      let r := deallocRange a ctrl w
      (done (payer.finish r.out), r.final)
  | done out, w => (done out, w)

/-- The call has a step to make. -/
def Running : Phase → Prop
  | done _ => False
  | _ => True

/-- The control reference that `set_weak_field` has displaced and not released yet. -/
def owes : Phase → Multiset Nat
  | payWeak ctrl .setter => {ctrl.start}
  | _ => 0

/-- What a step from the first phase to the second displaces, -/
def displaces : Phase → Phase → Multiset Nat
  | set _ _ _, ph => ph.owes
  | _, _ => 0

/-- what it releases on behalf of `set_weak_field`, -/
def releases : Phase → Phase → Multiset Nat
  | payWeak _ .setter, done (.ok (.lost _)) => 0
  | payWeak ctrl .setter, _ => {ctrl.start}
  | _, _ => 0

/-- and what it gives up as lost. -/
def loses : Phase → Phase → Multiset Nat
  | payWeak ctrl .setter, done (.ok (.lost _)) => {ctrl.start}
  | _, _ => 0

end Phase

/-- A call takes the lock of the file or not. -/
inductive Guard
  | free
  | waiting
  | holding
deriving DecidableEq, Repr

structure Access where
  phase : Phase
  guard : Guard

/-- The handles that callers have, the lock of the file, the calls in flight, the blocks these have freed, and
the control references that `set_weak_field` has displaced, released and lost. -/
structure State where
  world : World
  strong : Multiset BStackRc
  weak : Multiset BStackWeak
  locked : Bool
  calls : Multiset Access
  freed : List (Nat × Range)
  displaced : Multiset Nat
  released : Multiset Nat
  lost : Multiset Nat

namespace State

variable (a : Allocator) (s : State)

def strongCount (o : BStackRc) : Nat := (s.world.files a.stack).bytes.word (o.ctrl.start + CTRL_STRONG_OFFSET)

def weakCount (o : BStackRc) : Nat := (s.world.files a.stack).bytes.word (o.ctrl.start + CTRL_WEAK_OFFSET)

def CtrlFreed (o : BStackRc) : Prop := (a.stack, o.ctrl) ∈ s.freed

/-- The slots that name the control block of `o`. -/
def slotsOf (slots : List Slot) (o : BStackRc) : Nat :=
  (slots.filter fun σ => (σ.target (s.world.files a.stack)).map Prod.fst = some o.ctrl).length

/-- The call at `phase` makes its next step in the world `w`. -/
def act (phase : Phase) (guard : Guard) (rest : Multiset Access) (w : World) : State :=
  { s with
    world := (phase.next a w).2
    calls := ⟨(phase.next a w).1, guard⟩ ::ₘ rest
    freed := s.freed ++ newlyFreed s.world (phase.next a w).2
    displaced := s.displaced + phase.displaces (phase.next a w).1
    released := s.released + phase.releases (phase.next a w).1
    lost := s.lost + phase.loses (phase.next a w).1 }

/-- Give what a call returned to its caller. -/
def deliver : Except IoError Handed → State
  | .ok (.strong h) => { s with strong := h ::ₘ s.strong }
  | .ok (.value (.weak _ h)) | .ok (.recovered _ h) | .ok (.recoveredValue _ (.weak _ h)) =>
      { s with weak := h ::ₘ s.weak }
  | _ => s

end State

/-- Other code on the file leaves the objects and the slots alone. -/
structure LeavesAlone (k : Nat) (os : List BStackRc) (slots : List Slot) (s : State) (w : World) : Prop where
  quiet : w.Quiet
  objects : ∀ o ∈ os, BStackRaii.LeavesAlone k o ⟨s.world, ∅, ∅, 0, s.freed, 0⟩ w
  len : (s.world.files k).len ≤ (w.files k).len
  bytes : ∀ σ ∈ slots, ∀ i, σ.range.start ≤ i → i < σ.range.stop →
    (w.files k).bytes i = (s.world.files k).bytes i

/-- A weak handle of an object whose payload has the size `size`. -/
def HandleOf (os : List BStackRc) (size : Nat) (h : BStackWeak) : Prop :=
  ∃ o ∈ os, h = ⟨o.ctrl⟩ ∧ o.data.len = size

/-- The value is one of the enum type. -/
def Value.Fits (os : List BStackRc) (e : EnumType) : Value → Prop
  | weak disc h => disc < 256 ^ e.discLen ∧ ∃ size, e.variants disc = some (.weak size) ∧ HandleOf os size h
  | other disc payload =>
      disc < 256 ^ e.discLen ∧ e.variants disc = some .other ∧ payload.length = e.payloadLen

/-- What a step is: the start of a call, the lock, an atomic step, one whose I/O fails, a return, or a step of
other code. -/
inductive Act : Type 1
  | starts (phase : Phase)
  | acquires
  | steps (phase : Phase)
  | fails (phase : Phase)
  | returns
  | elsewhere

/-- Any interleaving of the accessors of the slots and the drops of handles. -/
inductive Step (a : Allocator) (os : List BStackRc) (slots : List Slot) : Act → State → State → Prop
  | dropStrong {s : State} (h : BStackRc) (hmem : h ∈ s.strong) :
      Step a os slots (.starts (.dropStrong h)) s { s with
        strong := s.strong.erase h
        calls := ⟨.dropStrong h, .free⟩ ::ₘ s.calls }
  | dropWeak {s : State} (h : BStackWeak) (hmem : h ∈ s.weak) :
      Step a os slots (.starts (.payWeak h.ctrl .handle)) s { s with
        weak := s.weak.erase h
        calls := ⟨.payWeak h.ctrl .handle, .free⟩ ::ₘ s.calls }
  | set {s : State} (off size : Nat) (h : BStackWeak) (hslot : .field off size ∈ slots) (hmem : h ∈ s.weak)
      (hsize : HandleOf os size h) :
      Step a os slots (.starts (.set off size h)) s { s with
        weak := s.weak.erase h
        calls := ⟨.set off size h, .waiting⟩ ::ₘ s.calls }
  | upgrade {s : State} (σ : Slot) (hslot : σ ∈ slots) :
      Step a os slots (.starts (.locate σ)) s { s with
        calls := ⟨.locate σ, if σ.Locks then .waiting else .free⟩ ::ₘ s.calls }
  | replaceWeak {s : State} (e : EnumType) (start disc : Nat) (h : BStackWeak)
      (hslot : .variant e start ∈ slots) (hmem : h ∈ s.weak) (hfits : (Value.weak disc h).Fits os e) :
      Step a os slots (.starts (.replace e start (.weak disc h))) s { s with
        weak := s.weak.erase h
        calls := ⟨.replace e start (.weak disc h), .free⟩ ::ₘ s.calls }
  | replaceOther {s : State} (e : EnumType) (start disc : Nat) (payload : List UInt8)
      (hslot : .variant e start ∈ slots) (hfits : (Value.other disc payload).Fits os e) :
      Step a os slots (.starts (.replace e start (.other disc payload))) s { s with
        calls := ⟨.replace e start (.other disc payload), .free⟩ ::ₘ s.calls }
  | acquire {s : State} (phase : Phase) (rest : Multiset Access)
      (hcalls : s.calls = ⟨phase, .waiting⟩ ::ₘ rest) (hfree : s.locked = false) :
      Step a os slots .acquires s { s with calls := ⟨phase, .holding⟩ ::ₘ rest, locked := true }
  | atomic {s : State} (phase : Phase) (guard : Guard) (rest : Multiset Access)
      (hcalls : s.calls = ⟨phase, guard⟩ ::ₘ rest) (hguard : guard ≠ .waiting) (hrunning : phase.Running) :
      Step a os slots (.steps phase) s (s.act a phase guard rest s.world)
  | fail {s : State} (phase : Phase) (guard : Guard) (rest : Multiset Access)
      (hcalls : s.calls = ⟨phase, guard⟩ ::ₘ rest) (hguard : guard ≠ .waiting) (hrunning : phase.Running) :
      Step a os slots (.fails phase) s (s.act a phase guard rest s.world.failing)
  | finish {s : State} (out : Except IoError Handed) (guard : Guard) (rest : Multiset Access)
      (hcalls : s.calls = ⟨.done out, guard⟩ ::ₘ rest) :
      Step a os slots .returns s (State.deliver { s with
        calls := rest
        locked := if guard = .holding then false else s.locked } out)
  | elsewhere {s : State} (w : World) (h : LeavesAlone a.stack os slots s w) :
      Step a os slots .elsewhere s { s with world := w }

/-- The blocks of the objects are told apart. -/
def Distinct (os : List BStackRc) : Prop := (os.flatMap fun o => [o.data, o.ctrl]).Pairwise Range.Apart

/-- A state in which nothing is in flight, with any number of handles: the counters of each object count the
handles and the slots that name it, and its blocks are freed as far as nobody names them. -/
structure Start (a : Allocator) (os : List BStackRc) (slots : List Slot) (s : State) : Prop where
  quiet : s.world.Quiet
  idle : s.calls = 0
  unlocked : s.locked = false
  none_displaced : s.displaced = 0
  none_released : s.released = 0
  none_lost : s.lost = 0
  distinct : Distinct os
  control : ∀ o ∈ os, o.ctrl.len = CONTROL_SIZE ∧ 0 < o.ctrl.start ∧ o.ctrl.start + CONTROL_SIZE < 2 ^ 64
  strong : ∀ h ∈ s.strong, h ∈ os
  weak : ∀ h ∈ s.weak, ∃ o ∈ os, h = ⟨o.ctrl⟩
  strong_count : ∀ o ∈ os, ¬ s.CtrlFreed a o → s.strongCount a o = s.strong.count o
  weak_count : ∀ o ∈ os, ¬ s.CtrlFreed a o →
    s.weakCount a o = s.weak.count ⟨o.ctrl⟩ + s.slotsOf a slots o + if 0 < s.strong.count o then 1 else 0
  forward : ∀ o ∈ os, ¬ s.CtrlFreed a o →
    (s.world.files a.stack).bytes.word (o.ctrl.start + CTRL_DATA_OFFSET) = o.data.start
  data : ∀ o ∈ os, if 0 < s.strong.count o then o.data ∈ (s.world.files a.stack).live ∧ (a.stack, o.data) ∉ s.freed
    else s.freed.count (a.stack, o.data) = 1
  ctrl : ∀ o ∈ os, if 0 < s.strong.count o + s.weak.count ⟨o.ctrl⟩ + s.slotsOf a slots o then
      o.ctrl ∈ (s.world.files a.stack).live ∧ ¬ s.CtrlFreed a o
    else s.freed.count (a.stack, o.ctrl) = 1
  slots_inside : ∀ σ ∈ slots, σ.fetched.stop ≤ (s.world.files a.stack).len
  slots_apart : slots.Pairwise fun σ τ => σ.range.stop ≤ τ.range.start ∨ τ.range.stop ≤ σ.range.start
  slots_clear : ∀ σ ∈ slots, ∀ o ∈ os, σ.range.stop ≤ o.ctrl.start ∨ o.ctrl.stop ≤ σ.range.start
  enums : ∀ e start, .variant e start ∈ slots → e.tag.length = 8 ∧ 8 ≤ e.payloadLen
  elements : ∀ contents i size, .element contents i size ∈ slots → 8 * i + 8 ≤ contents.len
  named : ∀ σ ∈ slots, ∀ ctrl size, σ.target (s.world.files a.stack) = some (ctrl, size) →
    ∃ o ∈ os, o.ctrl = ctrl ∧ o.data.len = size

/-- The runs whose steps all meet `P`. -/
def Run (a : Allocator) (os : List BStackRc) (slots : List Slot) (P : State → Act → Prop) (s s' : State) : Prop :=
  Relation.ReflTransGen (fun s s' => ∃ act, Step a os slots act s s' ∧ P s act) s s'

end WeakSlot

end BStackRaii
