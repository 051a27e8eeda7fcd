import BStackRaii.Logic.Threads
import BStackRaii.Model.Gen
import BStackRaii.Model.Refcount
/-!
# Bucket tables

The open-addressing half of `stdlib/util.rs`, which the hash map and the hash set share. A handle block
holds the table's address, its capacity, the number of live entries and the number of buckets in use. A
bucket is a state word, the key, and a payload that nothing here looks into.

`probeCommit` and `growTable` act inside one generator each. What the map and the set do at a bucket
differs in what a key that is already there gets, which is `onHit` below.
-/

namespace BStackRaii

/-- `hash::fnv1a`. -/
def fnv1a (bytes : List UInt8) : UInt64 :=
  bytes.foldl (fun h b => (h ^^^ b.toUInt64) * 0x100000001b3) 0xcbf29ce484222325

/-- `hash::double_hash`. -/
def doubleHash (bytes : List UInt8) : UInt64 × UInt64 :=
  let h1 := fnv1a bytes
  (h1, fnv1a (leBytes 8 h1.toNat) ||| 1)

def checkedOffMul (base index stride : Nat) : Except IoError Nat :=
  if base + index * stride < 2 ^ 64 then .ok (base + index * stride) else .error offsetOverflow

theorem checkedOffMul_ok {base index stride : Nat} (h : base + index * stride < 2 ^ 64) :
    checkedOffMul base index stride = .ok (base + index * stride) := if_pos h

/-- `x.wrapping_sub(1)` -/
def wrappingPred (x : Nat) : Nat := (x + (2 ^ 64 - 1)) % 2 ^ 64

theorem wrappingPred_eq {x : Nat} (hpos : 0 < x) (hx : x < 2 ^ 64) : wrappingPred x = x - 1 := by
  rw [wrappingPred]
  omega

/-- `get_u64(&buf[off..off + 8])`. -/
def getU64 (buf : List UInt8) (off : Nat) : Nat := leNat ((buf.drop off).take 8)

/-- `w8`: the write of a word. -/
def w8 (off v : Nat) : Nat × List UInt8 := (off, leBytes 8 v)

/-- `read_fields`: adjacent words in one read. -/
def readFields (k off n : Nat) : Io (List Nat) := do
  let buf ← getInto k off (n * 8)
  pure ((List.range n).map fun i => getU64 buf (i * 8))

/-- `alloc_image`: a block with `bytes` as its image. -/
def allocImage (a : Allocator) (bytes : List UInt8) : Io Range := do
  let slice ← alloc a bytes.length
  let written ← Prog.attempt (set a.stack slice.start bytes)
  match written with
  | .ok () => pure slice
  | .error e => do
      let _ ← Prog.attempt (deallocRange a slice)
      Prog.fail e

namespace BucketTable

def TABLE_OFF : Nat := HEADER_SIZE

def CAP_OFF : Nat := HEADER_SIZE + 8

def LEN_OFF : Nat := HEADER_SIZE + 16

def USED_OFF : Nat := HEADER_SIZE + 24

def MIN_CAP : Nat := 4

def EMPTY : Nat := 0

def OCCUPIED : Nat := 1

def TOMBSTONE : Nat := 2

def badCapacity : IoError := ⟨.invalidData, "corrupt bucket table capacity"⟩

def capacityChanged : IoError := ⟨.invalidData, "bucket table capacity changed during grow"⟩

/-- Stands for a loop that does not end. -/
def neverEnds : IoError := ⟨.other, "endless loop"⟩

def checkedMul (x y : Nat) : Except IoError Nat :=
  if x * y < 2 ^ 64 then .ok (x * y) else .error badCapacity

/-- The metadata of a table. -/
structure Meta where
  table : Nat
  cap : Nat
  len : Nat
  used : Nat
deriving DecidableEq, Repr

def metaOf (buf : List UInt8) : Meta := ⟨getU64 buf 0, getU64 buf 8, getU64 buf 16, getU64 buf 24⟩

def readMeta (handle : Nat) : Gen Meta := do
  let buf ← Gen.get (handle + HEADER_SIZE) 32
  pure (metaOf buf)

/-! ### Probing -/

/-- What `inspect` says at a bucket. The captures of the closure are passed along as `σ`. -/
inductive ProbeStep (σ α : Type)
  | next (s : σ)
  | stop (out : Except IoError (Batch × α))

section Probe

variable {σ α : Type}

/-- The `mask` of the probes. -/
def maskOf (cap : Nat) : Nat := wrappingPred cap

/-- The next `left` probes of `probe_commit`, from bucket `cur` on. -/
def probeFrom (stride : Nat) (m : Meta) (inspect : Meta → σ → Nat → List UInt8 → ProbeStep σ α)
    (exhausted : Meta → σ → Except IoError (Batch × α)) : Nat → Nat → σ → Gen (Batch × α)
  | 0, _, s => Gen.lift (exhausted m s)
  | left + 1, cur, s => do
      let off ← Gen.lift (checkedOffMul m.table cur stride)
      let buf ← Gen.get off stride
      match inspect m s cur buf with
      | .next s' => probeFrom stride m inspect exhausted left ((cur + 1) &&& maskOf m.cap) s'
      | .stop out => Gen.lift out

def probe (handle stride : Nat) (hash : UInt64) (start : σ)
    (inspect : Meta → σ → Nat → List UInt8 → ProbeStep σ α)
    (exhausted : Meta → σ → Except IoError (Batch × α)) : Gen (Batch × α) := do
  let m ← readMeta handle
  let cur := if m.cap = 0 then 0 else hash.toNat &&& maskOf m.cap
  probeFrom stride m inspect exhausted m.cap cur start

/-- `probe_commit`. -/
def probeCommit (a : Allocator) (handle stride : Nat) (hash : UInt64) (start : σ)
    (inspect : Meta → σ → Nat → List UInt8 → ProbeStep σ α)
    (exhausted : Meta → σ → Except IoError (Batch × α)) : Script IoError World α := do
  let r ← .atom (inplaceGen a.stack (probe handle stride hash start inspect exhausted))
  .lift r

end Probe

/-! ### Growing -/

/-- Snapshot the buckets from `i` on, `left` of them. -/
def readBuckets (m : Meta) (stride oldSize : Nat) : Nat → Nat → Gen (List (List UInt8))
  | 0, _ => pure []
  | left + 1, i =>
      if oldSize < i * stride + stride then Gen.lift (.error capacityChanged)
      else do
        let off ← Gen.lift (checkedOffMul m.table i stride)
        let buf ← Gen.get off stride
        let rest ← readBuckets m stride oldSize left (i + 1)
        pure (buf :: rest)

/-- The bucket the rebuild puts an entry in: the first empty one from `idx` on. -/
def vacantBucket (stride newcap : Nat) (image : Mem) : Nat → Nat → Option Nat
  | 0, _ => none
  | left + 1, idx =>
      if image.word (idx * stride) = EMPTY then some idx
      else vacantBucket stride newcap image left ((idx + 1) &&& (newcap - 1))

/-- Enter the live buckets of `old` into the new image. -/
def rebuild (stride ksz newcap : Nat) : List (List UInt8) → Mem → Except IoError Mem
  | [], image => .ok image
  | bucket :: old, image =>
      if getU64 bucket 0 ≠ OCCUPIED then rebuild stride ksz newcap old image
      else
        let kb := (bucket.drop 8).take ksz
        match vacantBucket stride newcap image newcap ((fnv1a kb).toNat &&& (newcap - 1)) with
        | none => .error neverEnds
        | some idx =>
            rebuild stride ksz newcap old
              (image.write (idx * stride) (leBytes 8 OCCUPIED ++ kb ++ bucket.drop (8 + ksz)))

/-- The generator of `grow_table`. It tells the table it replaced. -/
def swapTable (handle stride ksz newtable newcap newSize oldSize : Nat) :
    Gen (Batch × Option (Nat × Nat)) := do
  let m ← readMeta handle
  if newcap ≤ m.cap then pure ([], none)
  else do
    let old ← readBuckets m stride oldSize m.cap 0
    let image ← Gen.lift (rebuild stride ksz newcap old Mem.zero)
    pure ([(newtable, image.read 0 newSize), w8 (handle + TABLE_OFF) newtable,
      w8 (handle + CAP_OFF) newcap, w8 (handle + USED_OFF) m.len], some (m.table, m.cap))

/-- What is left of `grow_table` once its generator ran. -/
def afterSwap (a : Allocator) (stride : Nat) (spare : Range) :
    Except IoError (Option (Nat × Nat)) → Script IoError World Unit
  | .error e => do
      let _ ← .attempt (.atom (deallocRange a spare))
      .fail e
  | .ok none => do
      let _ ← .attempt (.atom (deallocRange a spare))
      pure ()
  | .ok (some (oldTable, oldCap)) =>
      if 0 < oldCap then do
        let _ ← .attempt (.atom (deallocRange a ⟨oldTable, min (oldCap * stride) (2 ^ 64 - 1)⟩))
        pure ()
      else pure ()

/-- The capacity that `grow_table` asks for. -/
def newcapOf (cap0 : Nat) : Nat := if cap0 = 0 then MIN_CAP else min (cap0 * 2) (2 ^ 64 - 1)

/-- `grow_table` once it has its new block. -/
def growInto (a : Allocator) (handle stride ksz cap0 newSize : Nat) (spare : Range) :
    Script IoError World Unit := do
  let oldSize ← .lift (checkedMul cap0 stride)
  let r ← .atom (inplaceGen a.stack
    (swapTable handle stride ksz spare.start (newcapOf cap0) newSize oldSize))
  afterSwap a stride ⟨spare.start, newSize⟩ r

/-- `grow_table`. -/
def growTable (a : Allocator) (handle stride ksz : Nat) : Script IoError World Unit := do
  let cap0 ← .atom (readU64 a.stack (handle + CAP_OFF))
  let newSize ← .lift (checkedMul (newcapOf cap0) stride)
  let spare ← .atom (alloc a newSize)
  growInto a handle stride ksz cap0 newSize spare

/-! ### Entering, removing and finding a key -/

/-- The entry an insertion places, and where. -/
structure NewEntry where
  handle : Nat
  stride : Nat
  ksz : Nat
  keyBytes : List UInt8
  valBytes : List UInt8

/-- The writes that place a new entry at bucket `target`. -/
def newBucketWrites (e : NewEntry) (m : Meta) (target : Nat) (slotWasEmpty : Bool) :
    Except IoError Batch := do
  let off ← checkedOffMul m.table target e.stride
  pure ([(off, leBytes 8 OCCUPIED ++ e.keyBytes ++ e.valBytes), w8 (e.handle + LEN_OFF) (m.len + 1)] ++
    if slotWasEmpty then [w8 (e.handle + USED_OFF) (m.used + 1)] else [])

/-- How the probe of an insertion ends: the entry was new, its key had this payload already, or no bucket
is free. -/
inductive Placed
  | added
  | present (payload : List UInt8)
  | noRoom
deriving DecidableEq, Repr

def matchesKey (ksz : Nat) (keyBytes buf : List UInt8) : Prop :=
  getU64 buf 0 = OCCUPIED ∧ (buf.drop 8).take ksz = keyBytes

instance (ksz : Nat) (keyBytes buf : List UInt8) : Decidable (matchesKey ksz keyBytes buf) :=
  inferInstanceAs (Decidable (_ ∧ _))

def inspectInsert (e : NewEntry) (onHit : Meta → Nat → Except IoError Batch) (m : Meta)
    (firstTomb : Option Nat) (idx : Nat) (buf : List UInt8) : ProbeStep (Option Nat) Placed :=
  if getU64 buf 0 = EMPTY then
    .stop do
      let ws ← newBucketWrites e m (firstTomb.getD idx) firstTomb.isNone
      pure (ws, .added)
  else if matchesKey e.ksz e.keyBytes buf then
    .stop do
      let ws ← onHit m idx
      pure (ws, .present (buf.drop (8 + e.ksz)))
  else if getU64 buf 0 = TOMBSTONE then .next (firstTomb.or (some idx))
  else .next firstTomb

def exhaustedInsert (e : NewEntry) (m : Meta) : Option Nat → Except IoError (Batch × Placed)
  | some t => do
      let ws ← newBucketWrites e m t false
      pure (ws, .added)
  | none => .ok ([], .noRoom)

/-- The load factor would be exceeded. -/
def Crowded (cap used : Nat) : Prop := cap = 0 ∨ cap * 3 < (used + 1) * 4

instance (cap used : Nat) : Decidable (Crowded cap used) := inferInstanceAs (Decidable (_ ∨ _))

/-- The loop of an insertion, in at most `attempts` rounds. -/
def insertLoop (a : Allocator) (e : NewEntry) (onHit : Meta → Nat → Except IoError Batch) :
    Nat → Script IoError World (Option (List UInt8))
  | 0 => .fail neverEnds
  | attempts + 1 => do
      let fields ← .atom (readFields a.stack (e.handle + CAP_OFF) 3)
      if Crowded (fields.getD 0 0) (fields.getD 2 0) then do
        growTable a e.handle e.stride e.ksz
        insertLoop a e onHit attempts
      else do
        let placed ← probeCommit a e.handle e.stride (fnv1a e.keyBytes) none (inspectInsert e onHit)
          (exhaustedInsert e)
        match placed with
        | .added => pure none
        | .present payload => pure (some payload)
        | .noRoom => do
            growTable a e.handle e.stride e.ksz
            insertLoop a e onHit attempts

def inspectRemove (handle stride ksz : Nat) (keyBytes : List UInt8) (m : Meta) (_ : Unit) (idx : Nat)
    (buf : List UInt8) : ProbeStep Unit (Option (List UInt8)) :=
  if getU64 buf 0 = EMPTY then .stop (.ok ([], none))
  else if matchesKey ksz keyBytes buf then
    .stop do
      let off ← checkedOffMul m.table idx stride
      -- where overflow is checked, a count of zero panics: see `Checked.inspectRemove`
      pure ([w8 off TOMBSTONE, w8 (handle + LEN_OFF) (wrappingPred m.len)], some (buf.drop (8 + ksz)))
  else .next ()

def removeKey (a : Allocator) (handle stride ksz : Nat) (keyBytes : List UInt8) :
    Script IoError World (Option (List UInt8)) :=
  probeCommit a handle stride (fnv1a keyBytes) () (inspectRemove handle stride ksz keyBytes)
    fun _ _ => .ok ([], none)

/-- The next `left` probes of a lookup, each a read of its own. -/
def lookupFrom (a : Allocator) (stride ksz table cap : Nat) (keyBytes : List UInt8) :
    Nat → Nat → Script IoError World (Option (List UInt8))
  | 0, _ => pure none
  | left + 1, idx => do
      let bucket ← .lift (checkedOffMul table idx stride)
      let buf ← .atom (getInto a.stack bucket stride)
      if getU64 buf 0 = EMPTY then pure none
      else if matchesKey ksz keyBytes buf then pure (some (buf.drop (8 + ksz)))
      else lookupFrom a stride ksz table cap keyBytes left ((idx + 1) &&& (cap - 1))

def lookup (a : Allocator) (handle stride ksz : Nat) (keyBytes : List UInt8) :
    Script IoError World (Option (List UInt8)) := do
  let fields ← .atom (readFields a.stack (handle + TABLE_OFF) 2)
  let table := fields.getD 0 0
  let cap := fields.getD 1 0
  if cap = 0 then pure none
  else lookupFrom a stride ksz table cap keyBytes cap ((fnv1a keyBytes).toNat &&& (cap - 1))

/-! ### Iterating -/

def mutated (msg : String) : IoError := ⟨.invalidData, msg⟩

/-- The state of an iterator: the snapshot it took and the next bucket. -/
structure Iter where
  handle : Nat
  table : Nat
  cap : Nat
  len : Nat
  idx : Nat
deriving DecidableEq, Repr

def iter (a : Allocator) (handle : Nat) : Io Iter := do
  let fields ← readFields a.stack (handle + TABLE_OFF) 3
  pure ⟨handle, fields.getD 0 0, fields.getD 1 0, fields.getD 2 0, 0⟩

namespace Iter

/-- Look for the next live bucket among the `left` from `idx` on. -/
def scan (a : Allocator) (stride : Nat) (it : Iter) :
    Nat → Nat → Io (Option (List UInt8) × Iter)
  | 0, _ => pure (none, { it with idx := it.cap })
  | left + 1, idx => do
      let bucket ← Prog.lift (checkedOffMul it.table idx stride)
      let buf ← getInto a.stack bucket stride
      if getU64 buf 0 = OCCUPIED then pure (some buf, { it with idx := idx + 1 })
      else scan a stride it left (idx + 1)

/-- `next`. An error ends the iteration. -/
def next (a : Allocator) (stride : Nat) (msg : String) (it : Iter) : Io (Option (List UInt8) × Iter) :=
  if it.idx < it.cap then do
    let fields ← readFields a.stack (it.handle + TABLE_OFF) 3
    if fields = [it.table, it.cap, it.len] then scan a stride it (it.cap - it.idx) it.idx
    else Prog.fail (mutated msg)
  else pure (none, it)

/-- Call `next` until it says that nothing is left, at most `calls` times. -/
def drain (a : Allocator) (stride : Nat) (msg : String) : Nat → Iter → Io (List (List UInt8))
  | 0, _ => pure []
  | calls + 1, it => do
      let (item, it') ← next a stride msg it
      match item with
      | none => pure []
      | some buf => do
          let rest ← drain a stride msg calls it'
          pure (buf :: rest)

end Iter

end BucketTable

end BStackRaii
