import BStackRaii.Model.TableCalls
/-!
# The hash set among threads

The calls of `stdlib/hashset.rs` and `stdlib/bloom.rs` with their atomic steps kept apart, over the tables of
`Model/Table`. A call works on two blocks, the table and the counters of the filter, and no step spans both.
-/

namespace BStackRaii

namespace BStackCountingBloomFilter

/-- `new`. The handle block is made once the counters are there; `tag` is the type tag of its header. -/
def new (a : Allocator) (tag : UInt64) (m k : Nat) : Io Range := do
  let slice ← alloc a (max m 1)
  let zeroed ← Prog.attempt (set a.stack slice.start (List.replicate (max m 1) 0))
  match zeroed with
  | .error e => do
      let _ ← Prog.attempt (deallocRange a slice)
      Prog.fail e
  | .ok () => do
      let built ← Prog.attempt (allocImage a
        ([BLOOM_SIZE, tag.toNat, slice.start, max m 1, max k 1, 0].flatMap (leBytes 8)))
      match built with
      | .ok range => pure range
      | .error e => do
          let _ ← Prog.attempt (deallocRange a slice)
          Prog.fail e

namespace Steps

section Operations

variable (a : Allocator) (filter : Nat)

/-- `adjust` -/
def adjust (keyBytes : List UInt8) (add : Bool) : Script IoError World Unit := do
  let fields ← .atom (readFields a.stack (filter + DATA_OFF) 3)
  let idxs ← .lift (indices (fields.getD 1 0) (fields.getD 2 0) keyBytes)
  let agg ← .lift (aggregate idxs)
  let offs ← .lift ((agg.map Prod.fst).mapM (counterOff (fields.getD 0 0)))
  let r ← .atom (inplaceGen a.stack (adjustGen filter add offs (agg.map Prod.snd)))
  .lift r

def insert (keyBytes : List UInt8) : Script IoError World Unit := adjust a filter keyBytes true

def remove (keyBytes : List UInt8) : Script IoError World Unit := adjust a filter keyBytes false

/-- The loop of `contains`. -/
def containsFrom (data : Nat) : List Nat → Script IoError World Bool
  | [] => pure true
  | idx :: idxs => do
      let off ← .lift (counterOff data idx)
      let b ← .atom (getInto a.stack off 1)
      if leNat b = 0 then pure false else containsFrom data idxs

def contains (keyBytes : List UInt8) : Script IoError World Bool := do
  let fields ← .atom (readFields a.stack (filter + DATA_OFF) 3)
  let idxs ← .lift (indices (fields.getD 1 0) (fields.getD 2 0) keyBytes)
  containsFrom a (fields.getD 0 0) idxs

end Operations

end Steps

end BStackCountingBloomFilter

namespace BStackHashSet

open BucketTable

/-- `with_capacity`, when the sizes of the filter are computed: `m` counters and `k` hashes. `dropFilter` is
`bstack_drop` of the filter. -/
def withCapacity (a : Allocator) (tag filterTag : UInt64) (m k : Nat) (dropFilter : Range → Io Unit) : Io Range := do
  let filter ← BStackCountingBloomFilter.new a filterTag m k
  let built ← Prog.attempt (allocImage a ([SET_SIZE, tag.toNat, 0, 0, 0, 0, filter.start].flatMap (leBytes 8)))
  match built with
  | .ok range => pure range
  | .error e => do
      let _ ← Prog.attempt (dropFilter ⟨filter.start, BStackCountingBloomFilter.BLOOM_SIZE⟩)
      Prog.fail e

namespace Steps

section Calls

variable {ksize : Nat} (a : Allocator) (handle : Nat)

/-- `bloom` -/
def bloom : Script IoError World Nat := .atom (readU64 a.stack (handle + BLOOM_OFF))

/-- `table_contains` -/
def tableContains (key : Key ksize) : Script IoError World Bool := do
  let found ← lookup a handle (stride ksize) ksize key.val
  pure found.isSome

/-- What an insertion does once it knows what the table held: a key that was there does not count twice. -/
def settle (filter : Nat) (key : Key ksize) (old : Option (List UInt8)) : Script IoError World Bool :=
  if old.isNone then pure true
  else do
    BStackCountingBloomFilter.Steps.remove a filter key.val
    pure false

def insert (attempts : Nat) (key : Key ksize) : Script IoError World Bool := do
  let filter ← bloom a handle
  BStackCountingBloomFilter.Steps.insert a filter key.val
  let old ← insertLoop a (newEntry ksize handle key.val) keep attempts
  settle a filter key old

/-- `let _ = ..`: an error is dropped, but a panic is none. -/
def discard (c : Script IoError World Unit) : Script IoError World Unit := do
  let r ← .attempt c
  match r with
  | .ok () => pure ()
  | .error e => if Wedged e then .fail e else pure ()

def remove (key : Key ksize) : Script IoError World Bool := do
  let old ← removeKey a handle (stride ksize) ksize key.val
  if old.isSome then do
    discard (do
      let filter ← bloom a handle
      BStackCountingBloomFilter.Steps.remove a filter key.val)
    pure true
  else pure false

def contains (key : Key ksize) : Script IoError World Bool := do
  let filter ← bloom a handle
  let possible ← BStackCountingBloomFilter.Steps.contains a filter key.val
  if possible then tableContains a handle key else pure false

end Calls

end Steps

end BStackHashSet

end BStackRaii
