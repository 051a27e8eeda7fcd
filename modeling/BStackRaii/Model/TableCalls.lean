import BStackRaii.Model.BloomFilter
/-!
# The calls of maps and sets

`stdlib/map.rs` and `stdlib/hashset.rs` over the tables of `Model/CheckedTable`: what a call reads, and what it may
panic at. A teardown or a clone goes into the value blocks, by code that is a parameter here.
-/

namespace BStackRaii

namespace BStackHashMap

open BucketTable

def capacityOverflow : IoError := ⟨.invalidData, "hash map capacity overflow"⟩

def tooBig : IoError := ⟨.invalidData, "hash map bucket block larger than the stack"⟩

/-- `&buf[8 + ksz..8 + ksz + 8]` -/
def taken (ksize : Nat) : Checked.Taken := fun buf => do
  let lo ← plus 8 ksize
  let hi ← plus lo 8
  slice buf lo hi

/-- What an insertion does to a key that is there. -/
def checkedOverwrite (ksize : Nat) (valRef : UInt64) (m : Meta) (idx : Nat) : Except IoError Batch := do
  let b ← checkedOffMul m.table idx (stride ksize)
  let kend ← plus 8 ksize
  let valueOff ← checkedOff b kend
  pure [w8 valueOff valRef.toNat]

/-- The key and the value reference of a live bucket. -/
def checkedItem (ksize : Nat) : Checked.Item (List UInt8 × Nat) := fun buf => do
  let kend ← plus 8 ksize
  let kb ← slice buf 8 kend
  let vref ← wordAt buf kend
  pure (kb, vref)

/-- `lo + 8 + ksz`: where the value reference of the bucket at `lo` lies. -/
def valueAt (ksize lo : Nat) : Except IoError Nat := do
  let key ← plus lo 8
  plus key ksize

/-- The loop of a teardown over the buckets of `image` from `j` on. -/
def dropValues (ksize : Nat) (dropValue : Nat → Io Unit) (image : List UInt8) : Nat → Nat → Io Unit
  | 0, _ => pure ()
  | left + 1, j => do
      let lo ← Prog.lift (times j (stride ksize))
      let state ← Prog.lift (wordAt image lo)
      if state = OCCUPIED then do
        let off ← Prog.lift (valueAt ksize lo)
        let vref ← Prog.lift (wordAt image off)
        if vref ≠ 0 then dropValue vref else pure ()
        dropValues ksize dropValue image left (j + 1)
      else dropValues ksize dropValue image left (j + 1)

/-- The loop of a clone. `cloneValue` clones a value block. -/
def cloneValues (ksize : Nat) (cloneValue : Nat → Prog IoError (Batch × World) Nat) :
    Nat → Nat → List UInt8 → Prog IoError (Batch × World) (List UInt8)
  | 0, _, image => pure image
  | left + 1, j, image => do
      let lo ← Prog.lift (times j (stride ksize))
      let state ← Prog.lift (wordAt image lo)
      if state ≠ OCCUPIED then cloneValues ksize cloneValue left (j + 1) image
      else do
        let off ← Prog.lift (valueAt ksize lo)
        let vref ← Prog.lift (wordAt image off)
        let cloned ← cloneValue vref
        let image' ← Prog.lift (splice image off (leBytes 8 cloned))
        cloneValues ksize cloneValue left (j + 1) image'

section Calls

variable (ksize : Nat) (a : Allocator) (handle : Nat)

/-- `insert` -/
def checkedInsert (attempts : Nat) (key : Key ksize) (valRef : UInt64) : Io (Option (List UInt8)) :=
  (Checked.insertLoop a (newEntry handle key valRef) (taken ksize) (checkedOverwrite ksize valRef) attempts).run

/-- `remove` -/
def checkedRemove (key : Key ksize) : Io (Option (List UInt8)) :=
  (Checked.removeKey a handle (stride ksize) ksize key.val (taken ksize)).run

/-- `get` -/
def checkedGet (key : Key ksize) : Io (Option (List UInt8)) :=
  Checked.lookup a handle (stride ksize) ksize key.val (taken ksize)

/-- `grow` -/
def checkedGrow : Io Unit := (Checked.growTable a handle (stride ksize) ksize).run

/-- The items of `iter`. -/
def checkedIter : Io (List (List UInt8 × Nat)) :=
  Checked.iterate a handle (stride ksize) mutatedMsg (checkedItem ksize)

/-- `__bstack_drop_children`. `dropValue` tears a value block down, and `dealloc` is `dealloc_range`. -/
def dropChildren (dropValue : Nat → Io Unit) (dealloc : Range → Io Unit) : Io Unit := do
  let fields ← readFields a.stack (handle + TABLE_OFF) 2
  let table := fields.getD 0 0
  let cap := fields.getD 1 0
  if table = 0 then pure ()
  else do
    let tableSize ← Checked.tableBytes a (stride ksize) cap capacityOverflow tooBig
    let image ← getInto a.stack table tableSize
    dropValues ksize dropValue image cap 0
    dealloc ⟨table, tableSize⟩

/-- `__bstack_clone_children_inplace`, over a plan that keeps the staged writes in front of the world. -/
def cloneChildren (tag : UInt64) (cloneValue : Nat → Prog IoError (Batch × World) Nat)
    (allocRaw : Nat → Prog IoError (Batch × World) Nat) : Prog IoError (Batch × World) (List UInt8) := do
  let fields ← Prog.onSnd (readFields a.stack (handle + TABLE_OFF) 4)
  let cap := fields.getD 1 0
  let (newTable, newCap, newUsed) ← if cap = 0 then pure (0, 0, 0)
    else do
      let tableSize ← Prog.onSnd (Checked.tableBytes a (stride ksize) cap capacityOverflow tooBig)
      let image ← Prog.onSnd (getInto a.stack (fields.getD 0 0) tableSize)
      let image' ← cloneValues ksize cloneValue cap 0 image
      let dst ← allocRaw tableSize
      Prog.onFst fun writes => writes ++ [(dst, image')]
      pure (dst, cap, fields.getD 3 0)
  pure (leBytes 8 MAP_SIZE ++ leBytes 8 tag.toNat ++ leBytes 8 newTable ++ leBytes 8 newCap ++
    leBytes 8 (fields.getD 2 0) ++ leBytes 8 newUsed)

end Calls

end BStackHashMap

namespace BStackHashSet

open BucketTable

def BLOOM_OFF : Nat := HEADER_SIZE + 32

def SET_SIZE : Nat := HEADER_SIZE + 40

def stride (ksize : Nat) : Nat := 8 + ksize

def mutatedMsg : String :=
  "BStackHashSet was mutated during iteration (its table/len changed); the iterator is invalidated"

def capacityOverflow : IoError := ⟨.invalidData, "hash set capacity overflow"⟩

def tooBig : IoError := ⟨.invalidData, "hash set bucket block larger than the stack"⟩

/-- A set has nothing behind its keys. -/
def taken : Checked.Taken := fun _ => .ok []

/-- A key that is there already stays as it is. -/
def keep (_ : Meta) (_ : Nat) : Except IoError Batch := .ok []

/-- The key of a live bucket. -/
def checkedItem (ksize : Nat) : Checked.Item (List UInt8) := fun buf => do
  let kend ← plus 8 ksize
  slice buf 8 kend

section Calls

variable (ksize : Nat) (a : Allocator) (handle : Nat)

def newEntry (keyBytes : List UInt8) : NewEntry := ⟨handle, stride ksize, ksize, keyBytes, []⟩

/-- `table_insert` -/
def tableInsert (attempts : Nat) (keyBytes : List UInt8) : Io Bool := do
  let old ← (Checked.insertLoop a (newEntry ksize handle keyBytes) taken keep attempts).run
  pure old.isNone

/-- `table_remove` -/
def tableRemove (keyBytes : List UInt8) : Io Bool := do
  let old ← (Checked.removeKey a handle (stride ksize) ksize keyBytes taken).run
  pure old.isSome

/-- `table_contains` -/
def tableContains (keyBytes : List UInt8) : Io Bool := do
  let found ← Checked.lookup a handle (stride ksize) ksize keyBytes taken
  pure found.isSome

/-- `grow` -/
def grow : Io Unit := (Checked.growTable a handle (stride ksize) ksize).run

/-- The keys of `iter`. -/
def iterKeys : Io (List (List UInt8)) :=
  Checked.iterate a handle (stride ksize) mutatedMsg (checkedItem ksize)

/-- `__bstack_drop_children`, inside of the teardown of the set. `dealloc` is `dealloc_range`. -/
def dropChildren (dealloc : Range → Io Unit) : Io Unit := do
  let fields ← readFields a.stack (handle + TABLE_OFF) 5
  let table := fields.getD 0 0
  let filter := fields.getD 4 0
  if table ≠ 0 then do
    let tableSize ← Checked.tableBytes a (stride ksize) (fields.getD 1 0) capacityOverflow tooBig
    dealloc ⟨table, tableSize⟩
  else pure ()
  if filter ≠ 0 then do
    BStackCountingBloomFilter.dropChildren a filter dealloc
    dealloc ⟨filter, BStackCountingBloomFilter.BLOOM_SIZE⟩
  else pure ()

/-- `__bstack_clone_children_inplace`, over a plan that keeps the staged writes in front of the world. -/
def cloneChildren (tag filterTag : UInt64) (allocRaw : Nat → Prog IoError (Batch × World) Nat) :
    Prog IoError (Batch × World) (List UInt8) := do
  let fields ← Prog.onSnd (readFields a.stack (handle + TABLE_OFF) 5)
  let cap := fields.getD 1 0
  let newTable ← if cap ≠ 0 then do
      let tableSize ← Prog.onSnd (Checked.tableBytes a (stride ksize) cap capacityOverflow tooBig)
      let image ← Prog.onSnd (getInto a.stack (fields.getD 0 0) tableSize)
      let dst ← allocRaw tableSize
      Prog.onFst fun writes => writes ++ [(dst, image)]
      pure dst
    else pure 0
  let od ← BStackCountingBloomFilter.cloneChildren a (fields.getD 4 0) filterTag allocRaw
  let newBloom ← allocRaw BStackCountingBloomFilter.BLOOM_SIZE
  Prog.onFst fun writes => writes ++ [(newBloom, od)]
  pure (leBytes 8 SET_SIZE ++ leBytes 8 tag.toNat ++ leBytes 8 newTable ++ leBytes 8 cap ++
    leBytes 8 (fields.getD 2 0) ++ leBytes 8 (fields.getD 3 0) ++ leBytes 8 newBloom)

end Calls

end BStackHashSet

end BStackRaii
