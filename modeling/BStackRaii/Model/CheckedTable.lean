import BStackRaii.Model.HashMap
/-!
# Tables whose arithmetic is checked

The bucket tables of `Model/Table` once more, on any bytes. Each plain `+`, `-` and `*` of the source and each
index into a buffer is a step that can panic here, and each loop without a bound of its own is one that may not end.
A call that panics or does not end is `Wedged`: what it yields is not a value that the code returns. `Proof/Table`
shows that a generator here is the one of `Model/Table` behind a guard on the counts that it reads.

The memory that a buffer takes is left out, but for the capacity that `Vec` cannot have. The block of the handle
lies in the file, so the sums of its start and an offset of a field are not checked.
-/

namespace BStackRaii

/-- Stands for a panic. -/
def panicked : IoError := ⟨.other, "panic"⟩

/-- An outcome that is none: an endless loop or a panic. -/
def Wedged (e : IoError) : Prop := e = BucketTable.neverEnds ∨ e = panicked

instance (e : IoError) : Decidable (Wedged e) := inferInstanceAs (Decidable (_ ∨ _))

/-- The code ends in `s`, with a value or an error. -/
def EndsAt {σ α : Type} (c : Prog IoError σ α) (s : σ) : Prop := ∀ e, (c s).out = .error e → ¬ Wedged e

/-- The code ends in every state. -/
def Ends {σ α : Type} (c : Prog IoError σ α) : Prop := ∀ s, EndsAt c s

/-- `x + y` on `u64`. -/
def plus (x y : Nat) : Except IoError Nat := if x + y < 2 ^ 64 then .ok (x + y) else .error panicked

/-- `x - y` on `u64`. -/
def minus (x y : Nat) : Except IoError Nat := if y ≤ x then .ok (x - y) else .error panicked

/-- `x * y` on `u64`. -/
def times (x y : Nat) : Except IoError Nat := if x * y < 2 ^ 64 then .ok (x * y) else .error panicked

/-- `&buf[lo..hi]` -/
def slice (buf : List UInt8) (lo hi : Nat) : Except IoError (List UInt8) :=
  if lo ≤ hi ∧ hi ≤ buf.length then .ok ((buf.drop lo).take (hi - lo)) else .error panicked

/-- `get_u64(&buf[lo..lo + 8])` -/
def wordAt (buf : List UInt8) (lo : Nat) : Except IoError Nat := do
  let hi ← plus lo 8
  let bytes ← slice buf lo hi
  pure (leNat bytes)

/-- `buf[lo..lo + 8].copy_from_slice(..)` -/
def splice (buf : List UInt8) (lo : Nat) (bytes : List UInt8) : Except IoError (List UInt8) :=
  if lo + bytes.length ≤ buf.length then .ok (buf.take lo ++ bytes ++ buf.drop (lo + bytes.length))
  else .error panicked

/-- `allocator.len()` -/
def stackLen (k : Nat) : Io Nat := Prog.volatile fun w =>
  if w.Faulty then (.error ioFault, w.tick) else (.ok (w.files k).len, w.tick)

namespace BucketTable

namespace Checked

/-! ### Probing -/

section Probe

variable {σ α : Type}

/-- A step of the closure, or its panic. -/
def orPanic : Except IoError (ProbeStep σ α) → ProbeStep σ α
  | .ok step => step
  | .error e => .stop (.error e)

/-- The next `left` probes of `probe_commit`. -/
def probeFrom (stride : Nat) (m : Meta) (inspect : Meta → σ → Nat → List UInt8 → Except IoError (ProbeStep σ α))
    (exhausted : Meta → σ → Except IoError (Batch × α)) : Nat → Nat → σ → Gen (Batch × α)
  | 0, _, s => Gen.lift (exhausted m s)
  | left + 1, cur, s => do
      let next ← Gen.lift (plus cur 1)
      let off ← Gen.lift (checkedOffMul m.table cur stride)
      let buf ← Gen.get off stride
      match orPanic (inspect m s cur buf) with
      | .next s' => probeFrom stride m inspect exhausted left (next &&& maskOf m.cap) s'
      | .stop out => Gen.lift out

def probe (handle stride : Nat) (hash : UInt64) (start : σ)
    (inspect : Meta → σ → Nat → List UInt8 → Except IoError (ProbeStep σ α))
    (exhausted : Meta → σ → Except IoError (Batch × α)) : Gen (Batch × α) := do
  let m ← readMeta handle
  let cur := if m.cap = 0 then 0 else hash.toNat &&& maskOf m.cap
  probeFrom stride m inspect exhausted m.cap cur start

/-- `probe_commit`. -/
def probeCommit (a : Allocator) (handle stride : Nat) (hash : UInt64) (start : σ)
    (inspect : Meta → σ → Nat → List UInt8 → Except IoError (ProbeStep σ α))
    (exhausted : Meta → σ → Except IoError (Batch × α)) : Script IoError World α := do
  let r ← .atom (inplaceGen a.stack (probe handle stride hash start inspect exhausted))
  .lift r

end Probe

/-! ### Growing -/

/-- Snapshot the buckets from `i` on, `left` of them, into a buffer of `oldSize` bytes. -/
def readBuckets (m : Meta) (stride oldSize : Nat) : Nat → Nat → Gen (List (List UInt8))
  | 0, _ => pure []
  | left + 1, i => do
      let next ← Gen.lift (plus i 1)
      let lo ← Gen.lift (times i stride)
      let hi ← Gen.lift (plus lo stride)
      if oldSize < hi then Gen.lift (.error capacityChanged)
      else do
        let off ← Gen.lift (checkedOffMul m.table i stride)
        let buf ← Gen.get off stride
        let rest ← readBuckets m stride oldSize left next
        pure (buf :: rest)

/-- The window of bucket `idx` in a buffer of `size` bytes: where it starts. -/
def bucketAt (size stride idx : Nat) : Except IoError Nat := do
  let lo ← times idx stride
  let hi ← plus lo stride
  if hi ≤ size then pure lo else .error panicked

/-- The loop that looks for an empty bucket of the new image. `left` are the rounds it is followed: as many as the
image has buckets, since a loop that has made that many never ends. -/
def vacantBucket (size stride newmask : Nat) (image : Mem) : Nat → Nat → Except IoError Nat
  | 0, _ => .error neverEnds
  | left + 1, idx => do
      let nlo ← bucketAt size stride idx
      if image.word nlo = EMPTY then pure idx
      else do
        let next ← plus idx 1
        vacantBucket size stride newmask image left (next &&& newmask)

/-- Enter the live buckets of `old` into the new image, of `size` bytes. -/
def rebuild (size stride ksz newcap newmask : Nat) : List (List UInt8) → Mem → Except IoError Mem
  | [], image => .ok image
  | bucket :: old, image => do
      let state ← wordAt bucket 0
      if state ≠ OCCUPIED then rebuild size stride ksz newcap newmask old image
      else do
        let kend ← plus 8 ksz
        let kb ← slice bucket 8 kend
        let rest ← slice bucket kend stride
        let idx ← vacantBucket size stride newmask image newcap ((fnv1a kb).toNat &&& newmask)
        let nlo ← bucketAt size stride idx
        rebuild size stride ksz newcap newmask old (image.write nlo (leBytes 8 OCCUPIED ++ kb ++ rest))

/-- The generator of `grow_table`. -/
def swapTable (handle stride ksz newtable newcap newSize oldSize : Nat) :
    Gen (Batch × Option (Nat × Nat)) := do
  let m ← readMeta handle
  if newcap ≤ m.cap then pure ([], none)
  else do
    let old ← readBuckets m stride oldSize m.cap 0
    let newmask ← Gen.lift (minus newcap 1)
    let image ← Gen.lift (rebuild newSize stride ksz newcap newmask old Mem.zero)
    pure ([(newtable, image.read 0 newSize), w8 (handle + TABLE_OFF) newtable,
      w8 (handle + CAP_OFF) newcap, w8 (handle + USED_OFF) m.len], some (m.table, m.cap))

/-- `grow_table`. -/
def growTable (a : Allocator) (handle stride ksz : Nat) : Script IoError World Unit := do
  let cap0 ← .atom (readU64 a.stack (handle + CAP_OFF))
  let newSize ← .lift (checkedMul (newcapOf cap0) stride)
  let spare ← .atom (alloc a newSize)
  let oldSize ← .lift (checkedMul cap0 stride)
  let r ← .atom (inplaceGen a.stack
    (swapTable handle stride ksz spare.start (newcapOf cap0) newSize oldSize))
  afterSwap a stride ⟨spare.start, newSize⟩ r

/-! ### Entering, removing and finding a key -/

/-- `new_bucket_writes` of the map, `place_writes` of the set. -/
def newBucketWrites (e : NewEntry) (m : Meta) (target : Nat) (slotWasEmpty : Bool) : Except IoError Batch := do
  let off ← checkedOffMul m.table target e.stride
  let len ← plus m.len 1
  if slotWasEmpty then do
    let used ← plus m.used 1
    pure [(off, leBytes 8 OCCUPIED ++ e.keyBytes ++ e.valBytes), w8 (e.handle + LEN_OFF) len,
      w8 (e.handle + USED_OFF) used]
  else pure [(off, leBytes 8 OCCUPIED ++ e.keyBytes ++ e.valBytes), w8 (e.handle + LEN_OFF) len]

/-- `state == OCCUPIED && buf[8..8 + ksz] == key_bytes` -/
def matchesKey (ksz : Nat) (keyBytes buf : List UInt8) (state : Nat) : Except IoError Bool :=
  if state = OCCUPIED then do
    let kend ← plus 8 ksz
    let kb ← slice buf 8 kend
    pure (decide (kb = keyBytes))
  else .ok false

/-- How a map or a set takes the payload of a bucket out of its bytes. -/
abbrev Taken : Type := List UInt8 → Except IoError (List UInt8)

def inspectInsert (e : NewEntry) (taken : Taken) (onHit : Meta → Nat → Except IoError Batch) (m : Meta)
    (firstTomb : Option Nat) (idx : Nat) (buf : List UInt8) :
    Except IoError (ProbeStep (Option Nat) Placed) := do
  let state ← wordAt buf 0
  if state = EMPTY then
    pure (.stop do
      let ws ← newBucketWrites e m (firstTomb.getD idx) firstTomb.isNone
      pure (ws, .added))
  else do
    let hit ← matchesKey e.ksz e.keyBytes buf state
    if hit then
      pure (.stop do
        let payload ← taken buf
        let ws ← onHit m idx
        pure (ws, .present payload))
    else if state = TOMBSTONE then pure (.next (firstTomb.or (some idx)))
    else pure (.next firstTomb)

def exhaustedInsert (e : NewEntry) (m : Meta) : Option Nat → Except IoError (Batch × Placed)
  | some t => do
      let ws ← newBucketWrites e m t false
      pure (ws, .added)
  | none => .ok ([], .noRoom)

/-- The loop of an insertion, in at most `attempts` rounds. -/
def insertLoop (a : Allocator) (e : NewEntry) (taken : Taken) (onHit : Meta → Nat → Except IoError Batch) :
    Nat → Script IoError World (Option (List UInt8))
  | 0 => .fail neverEnds
  | attempts + 1 => do
      let fields ← .atom (readFields a.stack (e.handle + CAP_OFF) 3)
      if Crowded (fields.getD 0 0) (fields.getD 2 0) then do
        growTable a e.handle e.stride e.ksz
        insertLoop a e taken onHit attempts
      else do
        let placed ← probeCommit a e.handle e.stride (fnv1a e.keyBytes) none (inspectInsert e taken onHit)
          (exhaustedInsert e)
        match placed with
        | .added => pure none
        | .present payload => pure (some payload)
        | .noRoom => do
            growTable a e.handle e.stride e.ksz
            insertLoop a e taken onHit attempts

def inspectRemove (handle stride ksz : Nat) (keyBytes : List UInt8) (taken : Taken) (m : Meta) (_ : Unit)
    (idx : Nat) (buf : List UInt8) : Except IoError (ProbeStep Unit (Option (List UInt8))) := do
  let state ← wordAt buf 0
  if state = EMPTY then pure (.stop (.ok ([], none)))
  else do
    let hit ← matchesKey ksz keyBytes buf state
    if hit then
      pure (.stop do
        let payload ← taken buf
        let off ← checkedOffMul m.table idx stride
        let len ← minus m.len 1
        pure ([w8 off TOMBSTONE, w8 (handle + LEN_OFF) len], some payload))
    else pure (.next ())

def removeKey (a : Allocator) (handle stride ksz : Nat) (keyBytes : List UInt8) (taken : Taken) :
    Script IoError World (Option (List UInt8)) :=
  probeCommit a handle stride (fnv1a keyBytes) () (inspectRemove handle stride ksz keyBytes taken)
    fun _ _ => .ok ([], none)

/-- The next `left` probes of a lookup. -/
def lookupFrom (a : Allocator) (stride ksz table mask : Nat) (keyBytes : List UInt8) (taken : Taken) :
    Nat → Nat → Io (Option (List UInt8))
  | 0, _ => pure none
  | left + 1, idx => do
      let bucket ← Prog.lift (checkedOffMul table idx stride)
      let buf ← getInto a.stack bucket stride
      let state ← Prog.lift (wordAt buf 0)
      if state = EMPTY then pure none
      else do
        let hit ← Prog.lift (matchesKey ksz keyBytes buf state)
        if hit then do
          let payload ← Prog.lift (taken buf)
          pure (some payload)
        else do
          let next ← Prog.lift (plus idx 1)
          lookupFrom a stride ksz table mask keyBytes taken left (next &&& mask)

def lookup (a : Allocator) (handle stride ksz : Nat) (keyBytes : List UInt8) (taken : Taken) :
    Io (Option (List UInt8)) := do
  let fields ← readFields a.stack (handle + TABLE_OFF) 2
  let table := fields.getD 0 0
  let cap := fields.getD 1 0
  if cap = 0 then pure none
  else do
    let mask ← Prog.lift (minus cap 1)
    lookupFrom a stride ksz table mask keyBytes taken cap ((fnv1a keyBytes).toNat &&& mask)

/-! ### Iterating -/

/-- How a map or a set makes an item of a live bucket. -/
abbrev Item (β : Type) : Type := List UInt8 → Except IoError β

section Iterate

variable {β : Type}

/-- Look for the next live bucket among the `left` from `idx` on. -/
def scan (a : Allocator) (stride : Nat) (item : Item β) (it : Iter) : Nat → Nat → Io (Option β × Iter)
  | 0, _ => pure (none, { it with idx := it.cap })
  | left + 1, idx => do
      let next ← Prog.lift (plus idx 1)
      let bucket ← Prog.lift (checkedOffMul it.table idx stride)
      let buf ← getInto a.stack bucket stride
      let state ← Prog.lift (wordAt buf 0)
      if state = OCCUPIED then do
        let x ← Prog.lift (item buf)
        pure (some x, { it with idx := next })
      else scan a stride item it left next

/-- `next`. An error ends the iteration. -/
def next (a : Allocator) (stride : Nat) (msg : String) (item : Item β) (it : Iter) : Io (Option β × Iter) :=
  if it.idx < it.cap then do
    let fields ← readFields a.stack (it.handle + TABLE_OFF) 3
    if fields = [it.table, it.cap, it.len] then scan a stride item it (it.cap - it.idx) it.idx
    else Prog.fail (mutated msg)
  else pure (none, it)

/-- Call `next` until it says that nothing is left. -/
def drain (a : Allocator) (stride : Nat) (msg : String) (item : Item β) : Nat → Iter → Io (List β)
  | 0, _ => Prog.fail neverEnds
  | calls + 1, it => do
      let (x, it') ← next a stride msg item it
      match x with
      | none => pure []
      | some x => do
          let rest ← drain a stride msg item calls it'
          pure (x :: rest)

/-- A whole iteration. It is followed for one call more than the table has buckets. -/
def iterate (a : Allocator) (handle stride : Nat) (msg : String) (item : Item β) : Io (List β) := do
  let it ← iter a handle
  drain a stride msg item (it.cap + 1) it

end Iterate

/-! ### The image of a table -/

/-- The bytes of a table of `cap` buckets, within the stack. -/
def tableBytes (a : Allocator) (stride cap : Nat) (overflow tooBig : IoError) : Io Nat := do
  let size ← Prog.lift (if cap * stride < 2 ^ 64 then .ok (cap * stride) else .error overflow)
  let total ← stackLen a.stack
  if total < size then Prog.fail tooBig else pure size

end Checked

end BucketTable

end BStackRaii
