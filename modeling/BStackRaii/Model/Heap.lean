import BStackRaii.Model.Table
/-!
# The binary heap

`stdlib/heap.rs`. The slots of the array block are a priority and the reference of a value each. A push and
a pop read the path of the sift slot by slot, and then write all of its slots and the length in one batch.

The heap has one writer at a time. The priorities are compared by `cmp`, the order of their type.
-/

namespace BStackRaii

namespace BStackBinaryHeap

def DATA_OFF : Nat := HEADER_SIZE

def CAP_OFF : Nat := HEADER_SIZE + 8

def LEN_OFF : Nat := HEADER_SIZE + 16

def HEAP_SIZE : Nat := HEADER_SIZE + 24

def MIN_CAP : Nat := 4

def capacityOverflow : IoError := ⟨.invalidData, "heap capacity overflow"⟩

def corruptCapacity : IoError := ⟨.invalidData, "corrupt heap capacity"⟩

def lengthOverflow : IoError := ⟨.invalidData, "heap length overflow"⟩

/-- Stands for a loop that does not end. -/
def neverEnds : IoError := ⟨.other, "endless loop"⟩

def stride (ksize : Nat) : Nat := ksize + 8

def checkedMul (x y : Nat) (e : IoError) : Except IoError Nat := if x * y < 2 ^ 64 then .ok (x * y) else .error e

section Operations

variable {ksize : Nat} (a : Allocator) (handle : Nat)

/-- The absolute offset of slot `i`. -/
def slotOff (ksize data i : Nat) : Except IoError Nat := checkedOffMul data i (stride ksize)

def readKey (ksize : Nat) (slot : List UInt8) : Key ksize :=
  ⟨(Mem.zero.write 0 slot).read 0 ksize, Mem.length_read ..⟩

def slotVal (ksize : Nat) (slot : List UInt8) : UInt64 := UInt64.ofNat (getU64 slot ksize)

/-- `read_meta`: `data`, `cap` and `len`. -/
def readMeta : Io (Nat × Nat × Nat) := do
  let fields ← readFields a.stack (handle + DATA_OFF) 3
  pure (fields.getD 0 0, fields.getD 1 0, fields.getD 2 0)

def readSlot (ksize data i : Nat) : Io (List UInt8) := do
  let off ← Prog.lift (slotOff ksize data i)
  getInto a.stack off (stride ksize)

/-- `tag` is the type tag of the header. -/
def withImage (tag : UInt64) (data cap : Nat) : Io Range :=
  allocImage a (leBytes 8 HEAP_SIZE ++ leBytes 8 tag.toNat ++ leBytes 8 data ++ leBytes 8 cap ++ leBytes 8 0)

/-- Allocate an empty heap. -/
def new (tag : UInt64) : Io Range := withImage a tag 0 0

def withCapacity (ksize : Nat) (tag : UInt64) (cap : Nat) : Io Range :=
  if cap = 0 then new a tag
  else do
    let size ← Prog.lift (checkedMul cap (stride ksize) capacityOverflow)
    let data ← alloc a size
    let built ← Prog.attempt (withImage a tag data.start cap)
    match built with
    | .ok o => pure o
    | .error e => do
        let _ ← Prog.attempt (deallocRange a ⟨data.start, size⟩)
        Prog.fail e

/-! ### Sifting -/

variable (cmp : Key ksize → Key ksize → Ordering)

/-- The loop that sifts up from `hole`: the writes, and where the hole ends. The hole only gets smaller, so
`left = hole` rounds are enough. -/
def siftUp (data : Nat) (key : Key ksize) : Nat → Nat → Io (Batch × Nat)
  | 0, hole => pure ([], hole)
  | left + 1, hole =>
      if hole = 0 then pure ([], hole)
      else do
        let parentSlot ← readSlot a ksize data ((hole - 1) / 2)
        if cmp (readKey ksize parentSlot) key = .gt then do
          let off ← Prog.lift (slotOff ksize data hole)
          let (writes, stop) ← siftUp data key left ((hole - 1) / 2)
          pure ((off, parentSlot) :: writes, stop)
        else pure ([], hole)

/-- The smaller child of `hole`, with its slot. -/
def smallerChild (data newlen hole : Nat) : Io (Nat × List UInt8) := do
  let smaller ← readSlot a ksize data (2 * hole + 1)
  if 2 * hole + 2 < newlen then do
    let right ← readSlot a ksize data (2 * hole + 2)
    if cmp (readKey ksize right) (readKey ksize smaller) = .lt then pure (2 * hole + 2, right)
    else pure (2 * hole + 1, smaller)
  else pure (2 * hole + 1, smaller)

/-- The loop that sifts down from `hole`. The hole only gets bigger, so `left = newlen` rounds are enough. -/
def siftDown (data newlen : Nat) (lastKey : Key ksize) : Nat → Nat → Io (Batch × Nat)
  | 0, hole => pure ([], hole)
  | left + 1, hole =>
      if newlen ≤ 2 * hole + 1 then pure ([], hole)
      else do
        let (child, smaller) ← smallerChild a cmp data newlen hole
        if cmp (readKey ksize smaller) lastKey = .lt then do
          let off ← Prog.lift (slotOff ksize data hole)
          let (writes, stop) ← siftDown data newlen lastKey left child
          pure ((off, smaller) :: writes, stop)
        else pure ([], hole)

/-! ### Growing -/

def newcapOf (cap : Nat) : Nat := if cap = 0 then MIN_CAP else min (cap * 2) (2 ^ 64 - 1)

/-- Copy the live elements into the new array. -/
def copySlots (ksize data len newdata : Nat) : Io Unit :=
  if 0 < len then do
    let size ← Prog.lift (checkedMul len (stride ksize) lengthOverflow)
    let buf ← getInto a.stack data size
    set a.stack newdata buf
  else pure ()

/-- Copy the live elements into the new array and swap the descriptor. -/
def copyInto (ksize data cap len newdata : Nat) : Io Unit := do
  copySlots a ksize data len newdata
  set a.stack (handle + DATA_OFF) (leBytes 8 newdata ++ leBytes 8 (newcapOf cap))
  if data ≠ 0 then do
    let _ ← Prog.attempt (deallocRange a ⟨data, min (cap * stride ksize) (2 ^ 64 - 1)⟩)
    pure ()
  else pure ()

def grow (ksize : Nat) : Io Unit := do
  let (data, cap, len) ← readMeta a handle
  if newcapOf cap ≤ cap then Prog.fail corruptCapacity
  else do
    let newSize ← Prog.lift (checkedMul (newcapOf cap) (stride ksize) capacityOverflow)
    let newdata ← alloc a newSize
    copyInto a handle ksize data cap len newdata.start

/-! ### Push and pop -/

/-- The batch of a push into the array at `data`. -/
def pushWrites (data len : Nat) (key : Key ksize) (valRef : UInt64) : Io Batch := do
  let (writes, hole) ← siftUp a cmp data key len len
  let off ← Prog.lift (slotOff ksize data hole)
  pure (writes ++ [(off, key.val ++ leBytes 8 valRef.toNat), w8 (handle + LEN_OFF) (len + 1)])

/-- The loop of `push`, in at most `attempts` rounds. On an error the value stays with the caller. -/
def push (key : Key ksize) (valRef : UInt64) : Nat → Io Unit
  | 0 => Prog.fail neverEnds
  | attempts + 1 => do
      let (data, cap, len) ← readMeta a handle
      if data = 0 ∨ cap ≤ len then do
        grow a handle ksize
        push key valRef attempts
      else do
        let writes ← pushWrites a handle cmp data len key valRef
        setBatched a.stack writes

/-- The batch of a pop that leaves `newlen` elements, of which `lastSlot` is placed anew. -/
def popWrites (data newlen : Nat) (lastSlot : List UInt8) : Io Batch := do
  let (writes, hole) ← siftDown a cmp data newlen (readKey ksize lastSlot) newlen 0
  let off ← Prog.lift (slotOff ksize data hole)
  pure (writes ++ [(off, lastSlot), w8 (handle + LEN_OFF) newlen])

/-- Take the root of `len` elements out: place the last element anew. -/
def removeRoot (data len : Nat) : Io Unit :=
  if len = 1 then set a.stack (handle + LEN_OFF) (leBytes 8 0)
  else do
    let lastSlot ← readSlot a ksize data (len - 1)
    let writes ← popWrites a handle cmp data (len - 1) lastSlot
    setBatched a.stack writes

def pop : Io (Option (Key ksize × UInt64)) := do
  let (data, _, len) ← readMeta a handle
  if len = 0 then pure none
  else do
    let minSlot ← readSlot a ksize data 0
    removeRoot a handle cmp data len
    pure (some (readKey ksize minSlot, slotVal ksize minSlot))

/-- Pop until nothing is left, at most `calls` times. -/
def drain : Nat → Io (List (Key ksize × UInt64))
  | 0 => pure []
  | calls + 1 => do
      let item ← pop a handle cmp
      match item with
      | none => pure []
      | some e => do
          let rest ← drain calls
          pure (e :: rest)

end Operations

end BStackBinaryHeap

end BStackRaii
