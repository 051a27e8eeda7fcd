import BStackRaii.Model.Update
/-!
# The deque

`stdlib/deque.rs`. The references of the elements are the words of one ring block, from the slot `head` on and
around its end. Each push and each pop is one generator. A full ring is replaced: the bigger one is allocated
first, and one generator copies the elements and swaps the descriptor, or finds that somebody else made room.
-/

namespace BStackRaii

namespace BStackDeque

def DATA_OFF : Nat := HEADER_SIZE

def CAP_OFF : Nat := HEADER_SIZE + 8

def HEAD_OFF : Nat := HEADER_SIZE + 16

def LEN_OFF : Nat := HEADER_SIZE + 24

def DEQUE_SIZE : Nat := HEADER_SIZE + 32

def MIN_CAP : Nat := 4

def zeroCapacity : IoError := ⟨.invalidData, "corrupt deque: zero capacity with a nonzero length"⟩

def capacityOverflow : IoError := ⟨.invalidData, "deque capacity overflow"⟩

def growOverflow : IoError := ⟨.invalidData, "deque offset overflow"⟩

/-- Stands for a loop that does not end. -/
def neverEnds : IoError := ⟨.other, "endless loop"⟩

def wrappingAdd (x y : Nat) : Nat := (x + y) % 2 ^ 64

/-- The slot that is `x` behind `head`. -/
def ringIndex (head x cap : Nat) : Except IoError Nat :=
  if cap = 0 then .error zeroCapacity else .ok (wrappingAdd head x % cap)

def slotAddr (data idx : Nat) : Except IoError Nat := checkedOffMul data idx 8

/-- The descriptor. -/
structure Ring where
  head : Nat
  len : Nat
  cap : Nat
  data : Nat
deriving DecidableEq, Repr

/-- The descriptor as the words that a generator reads first. -/
def ringOf (v1 : List Nat) : Ring := ⟨v1.getD 0 0, v1.getD 1 0, v1.getD 2 0, v1.getD 3 0⟩

section Operations

variable (a : Allocator) (handle : Nat)

/-- The words that every generator reads first. -/
def ringReads : List Nat := [handle + HEAD_OFF, handle + LEN_OFF, handle + CAP_OFF, handle + DATA_OFF]

/-- `tag` is the type tag of the header. -/
def withImage (tag : UInt64) (data cap : Nat) : Io Range :=
  allocImage a (leBytes 8 DEQUE_SIZE ++ leBytes 8 tag.toNat ++ leBytes 8 data ++ leBytes 8 cap ++ leBytes 8 0 ++
    leBytes 8 0)

/-- Allocate an empty deque. -/
def new (tag : UInt64) : Io Range := withImage a tag 0 0

def withCapacity (tag : UInt64) (cap : Nat) : Io Range :=
  if cap = 0 then new a tag
  else do
    let ring ← alloc a (min (cap * 8) (2 ^ 64 - 1))
    let built ← Prog.attempt (withImage a tag ring.start cap)
    match built with
    | .ok o => pure o
    | .error e => do
        let _ ← Prog.attempt (deallocRange a ⟨ring.start, min (cap * 8) (2 ^ 64 - 1)⟩)
        Prog.fail e

/-! ### Growing -/

def newcapOf (cap0 : Nat) : Nat := if cap0 = 0 then MIN_CAP else min (cap0 * 2) (2 ^ 64 - 1)

/-- There is room, or the ring is as big already. -/
def Abort (newcap : Nat) (t : Ring) : Prop := (t.cap ≠ 0 ∧ t.len < t.cap) ∨ newcap ≤ t.cap

instance (newcap : Nat) (t : Ring) : Decidable (Abort newcap t) := inferInstanceAs (Decidable (_ ∨ _))

/-- The slots of the elements, in order. -/
def growReads (newcap : Nat) (v1 : List Nat) : Except IoError (List Nat) :=
  let t := ringOf v1
  if Abort newcap t then .ok []
  else (List.range t.len).mapM fun i => do
    let idx ← ringIndex t.head i t.cap
    slotAddr t.data idx

/-- The writes of the elements `refs` to a new ring, from its slot `i` on. -/
def copyWrites (newring : Nat) : List Nat → Nat → Except IoError Batch
  | [], _ => .ok []
  | r :: refs, i =>
      if newring + i * 8 < 2 ^ 64 then do
        let rest ← copyWrites newring refs (i + 1)
        pure (w8 (newring + i * 8) r :: rest)
      else .error growOverflow

/-- It tells the ring that is replaced. -/
def growPlan (newring newcap : Nat) (v1 v2 : List Nat) : Except IoError (Batch × Option (Nat × Nat)) :=
  let t := ringOf v1
  if Abort newcap t then .ok ([], none)
  else do
    let copies ← copyWrites newring v2 0
    pure (copies ++ [w8 (handle + DATA_OFF) newring, w8 (handle + CAP_OFF) newcap, w8 (handle + HEAD_OFF) 0],
      some (t.data, t.cap))

/-- What is left of `grow` once its generator ran. -/
def afterGrow (newring newSize : Nat) : Option (Nat × Nat) → Script IoError World Unit
  | some (oldRing, oldCap) =>
      if 0 < oldCap then do
        let _ ← .attempt (.atom (deallocRange a ⟨oldRing, min (oldCap * 8) (2 ^ 64 - 1)⟩))
        pure ()
      else pure ()
  | none => do
      let _ ← .attempt (.atom (deallocRange a ⟨newring, newSize⟩))
      pure ()

/-- `grow` once it has its new ring. -/
def growInto (newring newcap newSize : Nat) : Script IoError World Unit := do
  let grown ← atomicUpdate a (ringReads handle) (growReads newcap) (growPlan handle newring newcap)
  afterGrow a newring newSize grown

def checkedMul (x y : Nat) (e : IoError) : Except IoError Nat := if x * y < 2 ^ 64 then .ok (x * y) else .error e

def grow : Script IoError World Unit := do
  let cap0 ← .atom (readU64 a.stack (handle + CAP_OFF))
  let newSize ← .lift (checkedMul (newcapOf cap0) 8 capacityOverflow)
  let newring ← .atom (alloc a newSize)
  growInto a handle newring.start (newcapOf cap0) newSize

/-! ### Pushing -/

/-- The generator of `push_back` after its reads. It tells whether there was room. -/
def backPlan (valOff : UInt64) (v1 : List Nat) : Except IoError (Batch × Bool) :=
  let t := ringOf v1
  if t.len < t.cap then do
    let slot ← slotAddr t.data (wrappingAdd t.head t.len % t.cap)
    pure ([w8 slot valOff.toNat, w8 (handle + LEN_OFF) (t.len + 1)], true)
  else .ok ([], false)

/-- The generator of `push_front` after its reads. -/
def frontPlan (valOff : UInt64) (v1 : List Nat) : Except IoError (Batch × Bool) :=
  let t := ringOf v1
  if t.len < t.cap then do
    let idx := wrappingAdd t.head (t.cap - 1) % t.cap
    let slot ← slotAddr t.data idx
    pure ([w8 slot valOff.toNat, w8 (handle + HEAD_OFF) idx, w8 (handle + LEN_OFF) (t.len + 1)], true)
  else .ok ([], false)

/-- The loop of a push, in at most `attempts` rounds. On an error the value stays with the caller. -/
def pushLoop (plan : List Nat → Except IoError (Batch × Bool)) : Nat → Script IoError World Unit
  | 0 => .fail neverEnds
  | attempts + 1 => do
      let placed ← atomicUpdate a (ringReads handle) (fun _ => .ok []) fun v1 _ => plan v1
      if placed then pure ()
      else do
        grow a handle
        pushLoop plan attempts

def pushBack (valOff : UInt64) (attempts : Nat) : Script IoError World Unit :=
  pushLoop a handle (backPlan handle valOff) attempts

def pushFront (valOff : UInt64) (attempts : Nat) : Script IoError World Unit :=
  pushLoop a handle (frontPlan handle valOff) attempts

/-! ### Popping -/

/-- The slot to read, `x` behind the head, if there is an element. -/
def popReads (x : Ring → Nat) (v1 : List Nat) : Except IoError (List Nat) :=
  let t := ringOf v1
  if t.len = 0 then .ok []
  else do
    let idx ← ringIndex t.head (x t) t.cap
    let slot ← slotAddr t.data idx
    pure [slot]

def popBack : Script IoError World (Option UInt64) :=
  atomicUpdate a (ringReads handle) (popReads fun t => t.len - 1) fun v1 v2 =>
    let t := ringOf v1
    if t.len ≠ 0 then .ok ([w8 (handle + LEN_OFF) (t.len - 1)], some (UInt64.ofNat (v2.getD 0 0)))
    else .ok ([], none)

def popFront : Script IoError World (Option UInt64) :=
  atomicUpdate a (ringReads handle) (popReads fun _ => 0) fun v1 v2 =>
    let t := ringOf v1
    if t.len ≠ 0 then do
      let head ← ringIndex t.head 1 t.cap
      pure ([w8 (handle + HEAD_OFF) head, w8 (handle + LEN_OFF) (t.len - 1)], some (UInt64.ofNat (v2.getD 0 0)))
    else .ok ([], none)

/-! ### Iterating -/

def mutatedMsg : IoError := ⟨.invalidData,
  "BStackDeque was mutated during iteration (its head/len/ring changed); the iterator is invalidated"⟩

def readMeta : Io Ring := do
  let fields ← readFields a.stack (handle + DATA_OFF) 4
  pure ⟨fields.getD 2 0, fields.getD 3 0, fields.getD 1 0, fields.getD 0 0⟩

structure DequeIter where
  blockOff : Nat
  ring : Ring
  pos : Nat
deriving DecidableEq, Repr

def iter : Io DequeIter := do
  let ring ← readMeta a handle
  pure ⟨handle, ring, 0⟩

/-- `next`. An error ends the iteration. -/
def DequeIter.next (it : DequeIter) : Io (Option UInt64 × DequeIter) :=
  if it.ring.len ≤ it.pos then pure (none, it)
  else do
    let ring ← readMeta a it.blockOff
    if ring ≠ it.ring then Prog.fail mutatedMsg
    else do
      let idx ← Prog.lift (ringIndex it.ring.head it.pos it.ring.cap)
      let slot ← Prog.lift (slotAddr it.ring.data idx)
      let vref ← readU64 a.stack slot
      pure (some (UInt64.ofNat vref), { it with pos := it.pos + 1 })

end Operations

end BStackDeque

end BStackRaii
