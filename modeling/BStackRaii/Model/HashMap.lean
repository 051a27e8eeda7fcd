import BStackRaii.Model.Table
/-!
# The hash map

`stdlib/map.rs`. A bucket's payload is the reference of the value, one word. An insertion that finds its
key puts the new reference in place and hands the old one back.
-/

namespace BStackRaii

namespace BStackHashMap

open BucketTable

def MAP_SIZE : Nat := HEADER_SIZE + 32

def stride (ksize : Nat) : Nat := 16 + ksize

def mutatedMsg : String :=
  "BStackHashMap was mutated during iteration (its table/len changed); the iterator is invalidated"

section Operations

variable {ksize : Nat} (a : Allocator) (handle : Nat)

/-- Allocate an empty map. `tag` is the type tag of its header. -/
def new (tag : UInt64) : Io Range :=
  allocImage a (leBytes 8 MAP_SIZE ++ leBytes 8 tag.toNat ++ leBytes 8 0 ++ leBytes 8 0 ++ leBytes 8 0 ++
    leBytes 8 0)

/-- The value reference in a payload. -/
def valueRef (payload : List UInt8) : UInt64 := UInt64.ofNat (getU64 payload 0)

/-- What an insertion does to a key that is there: replace the value reference. -/
def overwrite (ksize : Nat) (valRef : UInt64) (m : Meta) (idx : Nat) : Except IoError Batch := do
  let b ← checkedOffMul m.table idx (stride ksize)
  let valueOff ← checkedOff b (8 + ksize)
  pure [w8 valueOff valRef.toNat]

def newEntry (key : Key ksize) (valRef : UInt64) : NewEntry :=
  ⟨handle, stride ksize, ksize, key.val, leBytes 8 valRef.toNat⟩

/-- On an error the value stays with the caller. -/
def insert (attempts : Nat) (key : Key ksize) (valRef : UInt64) : Script IoError World (Option UInt64) := do
  let old ← insertLoop a (newEntry handle key valRef) (overwrite ksize valRef) attempts
  pure (old.map valueRef)

def remove (key : Key ksize) : Script IoError World (Option UInt64) := do
  let old ← removeKey a handle (stride ksize) ksize key.val
  pure (old.map valueRef)

def get (key : Key ksize) : Script IoError World (Option UInt64) := do
  let found ← lookup a handle (stride ksize) ksize key.val
  pure (found.map valueRef)

/-- The item an iterator makes of a live bucket. -/
def itemOf (ksize : Nat) (buf : List UInt8) : Key ksize × UInt64 :=
  (⟨(Mem.zero.write 0 buf).read 8 ksize, Mem.length_read ..⟩, UInt64.ofNat (getU64 buf (8 + ksize)))

/-- `next`. An error ends the iteration. -/
def next (ksize : Nat) (it : Iter) : Io (Option (Key ksize × UInt64) × Iter) := do
  let (item, it') ← it.next a (stride ksize) mutatedMsg
  pure (item.map (itemOf ksize), it')

/-- Collect what `iter` yields. -/
def toVec (ksize : Nat) : Io (List (Key ksize × UInt64)) := do
  let it ← iter a handle
  let items ← it.drain a (stride ksize) mutatedMsg (it.cap + 1)
  pure (items.map (itemOf ksize))

end Operations

end BStackHashMap

end BStackRaii
