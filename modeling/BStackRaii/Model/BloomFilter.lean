import BStackRaii.Model.CheckedTable
import Mathlib.Data.List.Sort
/-!
# The counting Bloom filter

`stdlib/bloom.rs`: an array of one-byte counters, and for each key the counters that its hashes name. The number of
counters and of hashes are words of the handle, so both may be anything. As in `Model/CheckedTable`, a step that
can panic is checked.
-/

namespace BStackRaii

namespace BStackCountingBloomFilter

def DATA_OFF : Nat := HEADER_SIZE

def M_OFF : Nat := HEADER_SIZE + 8

def N_OFF : Nat := HEADER_SIZE + 24

def BLOOM_SIZE : Nat := HEADER_SIZE + 32

def zeroCounters : IoError := ⟨.invalidData, "corrupt bloom filter: zero counter count"⟩

def filterOverflow : IoError := ⟨.invalidData, "bloom filter offset overflow"⟩

def filterTooBig : IoError := ⟨.invalidData, "bloom filter counter array larger than the stack"⟩

/-- The counter that hash `i` names. -/
def indexOf (m : Nat) (keyBytes : List UInt8) (i : Nat) : Nat :=
  ((doubleHash keyBytes).1 + UInt64.ofNat i * (doubleHash keyBytes).2).toNat % m

/-- The bytes that a `Vec` can hold. -/
def vecCapacity : Nat := 2 ^ 63

/-- `indices`. `collect` makes room for all of them first. -/
def indices (m k : Nat) (keyBytes : List UInt8) : Except IoError (List Nat) :=
  if m = 0 then .error zeroCounters
  else if vecCapacity ≤ k * 8 then .error panicked
  else .ok ((List.range k).map (indexOf m keyBytes))

/-- `last.1 += 1` on `u32` -/
def bump (n : Nat) : Except IoError Nat := if n + 1 < 2 ^ 32 then .ok (n + 1) else .error panicked

/-- The loop of `aggregate` over the sorted indices. The pair in front is `out.last_mut()`. -/
def collapse : List Nat → Nat × Nat → Except IoError (List (Nat × Nat))
  | [], last => .ok [last]
  | x :: xs, last =>
      if last.1 = x then do
        let count ← bump last.2
        collapse xs (x, count)
      else do
        let rest ← collapse xs (x, 1)
        pure (last :: rest)

/-- `aggregate` -/
def aggregate (idxs : List Nat) : Except IoError (List (Nat × Nat)) :=
  match idxs.insertionSort (· ≤ ·) with
  | [] => .ok []
  | x :: xs => collapse xs (x, 1)

def counterOff (data idx : Nat) : Except IoError Nat :=
  if data + idx < 2 ^ 64 then .ok (data + idx) else .error filterOverflow

/-- A counter once its key is added or taken `mult` times. One that has reached 255 stays there. -/
def adjusted (add : Bool) (count mult : Nat) : Nat :=
  if add then min (count + min mult 255) 255 else if count = 255 then 255 else count - min mult 255

/-- `n.saturating_add(1)`, `n.saturating_sub(1)` -/
def adjustedCount (add : Bool) (n : Nat) : Nat := if add then min (n + 1) (2 ^ 64 - 1) else n - 1

/-- The reads of the counters. -/
def readCounters : List Nat → Gen (List Nat)
  | [] => pure []
  | off :: offs => do
      let buf ← Gen.get off 1
      let rest ← readCounters offs
      pure (leNat buf :: rest)

/-- The generator of `adjust`. -/
def adjustGen (handle : Nat) (add : Bool) (offs : List Nat) (mults : List Nat) : Gen (Batch × Unit) := do
  let counts ← readCounters offs
  let buf ← Gen.get (handle + N_OFF) 8
  pure ((offs.zip ((counts.zip mults).map fun c => leBytes 1 (adjusted add c.1 c.2))) ++
    [w8 (handle + N_OFF) (adjustedCount add (leNat buf))], ())

section Operations

variable (a : Allocator) (handle : Nat)

/-- `__bstack_drop_children`. `dealloc` is `dealloc_range`. -/
def dropChildren (dealloc : Range → Io Unit) : Io Unit := do
  let fields ← readFields a.stack (handle + DATA_OFF) 2
  if fields.getD 0 0 ≠ 0 then dealloc ⟨fields.getD 0 0, fields.getD 1 0⟩ else pure ()

/-- `__bstack_clone_children_inplace`, over a plan that keeps the staged writes in front of the world. `tag` is the
type tag of the filter. -/
def cloneChildren (tag : UInt64) (allocRaw : Nat → Prog IoError (Batch × World) Nat) :
    Prog IoError (Batch × World) (List UInt8) := do
  let fields ← Prog.onSnd (readFields a.stack (handle + DATA_OFF) 4)
  let m := fields.getD 1 0
  let newData ← if m ≠ 0 then do
      let total ← Prog.onSnd (stackLen a.stack)
      if total < m then Prog.fail filterTooBig
      else do
        let bytes ← Prog.onSnd (getInto a.stack (fields.getD 0 0) m)
        let dst ← allocRaw m
        Prog.onFst fun writes => writes ++ [(dst, bytes)]
        pure dst
    else pure 0
  pure (leBytes 8 BLOOM_SIZE ++ leBytes 8 tag.toNat ++ leBytes 8 newData ++ leBytes 8 m ++
    leBytes 8 (fields.getD 2 0) ++ leBytes 8 (fields.getD 3 0))

end Operations

end BStackCountingBloomFilter

end BStackRaii
