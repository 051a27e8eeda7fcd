import BStackRaii.Model.World
import Mathlib.Data.Nat.Log
/-!
# The write-ahead log of `io_core::wal`

One persistent block per file, reached through the anchor slot: a header and an array of entries.
Clones stage `Alloc` entries in it, one by one; teardowns stage `Dealloc` entries, all at once.
`HeldLock.finish` reclaims what the staged transaction orphaned.

The padding and the reserved `_obj_id` word are written as zero and never read.
-/

namespace BStackRaii

/-! ### On-disk constants -/

def WAL_MAGIC : Nat := 0x6273_7461_636b_5741

def WAL_MIN_CAP : Nat := 8

def WAL_MAX_CAP : Nat := 2 ^ 20

def WAL_STATUS_OFFSET : Nat := 8

def WAL_COUNT_OFFSET : Nat := 16

/-- `size_of::<WalHeader>()`. -/
def WAL_HEADER_SIZE : Nat := 32

/-- `size_of::<WalEntry>()`. -/
def WAL_ENTRY_SIZE : Nat := 32

def STD_WAL_ANCHOR : Nat := 8

/-- `FileId::SELF`: the file the log itself is in. -/
def FileId.SELF : Nat := 0

/-- `FirstFitBStackAllocator` on file `k`: an anchor, and no bulk operations. -/
def firstFit (k : Nat) : Allocator := ⟨k, false, some STD_WAL_ANCHOR, FileId.SELF⟩

/-- `GhostTreeBstackAllocator` on file `k`: an anchor, and atomic bulk operations. -/
def ghostTree (k : Nat) : Allocator := ⟨k, true, some STD_WAL_ANCHOR, FileId.SELF⟩

/-! ### Statuses, operations, entries -/

inductive WalStatus
  | none
  | pending
  | complete
  | abandon
deriving DecidableEq, Repr

namespace WalStatus

def toU8 : WalStatus → UInt8
  | none => 0
  | pending => 1
  | complete => 2
  | abandon => 3

/-- Any byte that is not a status is the safe sink `abandon`: never run, leak. -/
def fromU8 (v : UInt8) : WalStatus :=
  if v = 0 then none else if v = 1 then pending else if v = 2 then complete else abandon

@[simp] theorem fromU8_toU8 (s : WalStatus) : fromU8 s.toU8 = s := by cases s <;> rfl

end WalStatus

inductive WalOp
  | alloc
  | dealloc
deriving DecidableEq, Repr

namespace WalOp

def toU8 : WalOp → UInt8
  | alloc => 0
  | dealloc => 1

/-- A corrupt byte is neither operation. -/
def fromU8 (v : UInt8) : Option WalOp :=
  if v = 0 then some alloc else if v = 1 then some dealloc else none

@[simp] theorem fromU8_toU8 (o : WalOp) : fromU8 o.toU8 = some o := by cases o <;> rfl

end WalOp

/-- `WalEntry`, with its status and operation as the raw bytes on disk. -/
structure WalEntry where
  statusByte : UInt8
  opByte : UInt8
  fileId : Nat
  wordA : Nat
  wordB : Nat
deriving DecidableEq, Repr

namespace WalEntry

def allocIn (status : WalStatus) (file : Nat) (slice : Range) : WalEntry :=
  ⟨status.toU8, WalOp.alloc.toU8, file, slice.start, slice.len⟩

def alloc (status : WalStatus) (slice : Range) : WalEntry := allocIn status FileId.SELF slice

def deallocIn (status : WalStatus) (file : Nat) (slice : Range) : WalEntry :=
  ⟨status.toU8, WalOp.dealloc.toU8, file, slice.start, slice.len⟩

def status (e : WalEntry) : WalStatus := WalStatus.fromU8 e.statusByte

def op (e : WalEntry) : Option WalOp := WalOp.fromU8 e.opByte

def asAlloc (e : WalEntry) : Option Range :=
  if e.op = some .alloc then some ⟨e.wordA, e.wordB⟩ else none

def asDealloc (e : WalEntry) : Option Range :=
  if e.op = some .dealloc then some ⟨e.wordA, e.wordB⟩ else none

/-- The 32 bytes of an entry. -/
def encode (e : WalEntry) : List UInt8 :=
  [e.statusByte, e.opByte] ++ List.replicate 6 0 ++ leBytes 4 e.fileId ++ leBytes 4 0 ++
    leBytes 8 e.wordA ++ leBytes 8 e.wordB

def decode (bs : List UInt8) : WalEntry where
  statusByte := bs.headD 0
  opByte := (bs.drop 1).headD 0
  fileId := leNat ((bs.drop 8).take 4)
  wordA := leNat ((bs.drop 16).take 8)
  wordB := leNat ((bs.drop 24).take 8)

end WalEntry

structure WalHeader where
  magic : Nat
  statusByte : UInt8
  count : Nat
  capacity : Nat
deriving DecidableEq, Repr

namespace WalHeader

def txnStatus (h : WalHeader) : WalStatus := WalStatus.fromU8 h.statusByte

def encode (h : WalHeader) : List UInt8 :=
  leBytes 8 h.magic ++ [h.statusByte] ++ List.replicate 7 0 ++ leBytes 8 h.count ++
    leBytes 8 h.capacity

def decode (bs : List UInt8) : WalHeader where
  magic := leNat (bs.take 8)
  statusByte := (bs.drop 8).headD 0
  count := leNat ((bs.drop 16).take 8)
  capacity := leNat ((bs.drop 24).take 8)

end WalHeader

/-- `WalLog::entries_from_bytes`: the first `count` packed entries. -/
def entriesFromBytes : Nat → List UInt8 → List WalEntry
  | 0, _ => []
  | count + 1, bs => WalEntry.decode (bs.take WAL_ENTRY_SIZE) ::
      entriesFromBytes count (bs.drop WAL_ENTRY_SIZE)

/-- `WalLog::block_image`: the used prefix of a block of `capacity` slots. -/
def blockImage (log : List WalEntry) (status : WalStatus) (capacity : Nat) : List UInt8 :=
  WalHeader.encode ⟨WAL_MAGIC, status.toU8, log.length, capacity⟩ ++ log.flatMap WalEntry.encode

structure WalBlock where
  range : Range
  capacity : Nat
deriving DecidableEq, Repr

/-- The block of `capacity` slots at `off`. -/
def WalBlock.at (off capacity : Nat) : WalBlock :=
  ⟨⟨off, WAL_HEADER_SIZE + capacity * WAL_ENTRY_SIZE⟩, capacity⟩

/-- `u64::next_power_of_two`. -/
def nextPowerOfTwo (n : Nat) : Nat := if n ≤ 1 then 1 else 2 ^ (Nat.log2 (n - 1) + 1)

/-! ### The per-file lock -/

def reentered : IoError :=
  ⟨.wouldBlock, "clone re-entered a file already being cloned on this thread (an owned " ++
    "cross-file cycle, or a `Foreign` that resolves to the home file); this " ++
    "would deadlock on the per-file WAL lock"⟩

/-- The world with the lock of file `k` taken. -/
def World.lock (w : World) (k : Nat) : World := { w with held := k :: w.held }

def World.unlock (w : World) (k : Nat) : World := { w with held := w.held.erase k }

/-- Take the file's WAL lock. Holding it already is an error, not a deadlock. -/
def HeldLock.acquire (a : Allocator) : Io Unit := Prog.volatile fun w =>
  if a.stack ∈ w.held then (.error reentered, w) else (.ok (), w.lock a.stack)

def HeldLock.drop (a : Allocator) : Io Unit := Prog.volatile fun w => (.ok (), w.unlock a.stack)

/-- Run `c` under the file's WAL lock. -/
def withLock {α : Type} (a : Allocator) (c : Io α) : Io α := do
  HeldLock.acquire a
  let r ← Prog.attempt c
  HeldLock.drop a
  Prog.lift r

section Lock

variable (w : World) (k : Nat)

@[simp] theorem World.files_lock : (w.lock k).files = w.files := rfl

@[simp] theorem World.freed_lock : (w.lock k).freed = w.freed := rfl

@[simp] theorem World.attached_lock : (w.lock k).attached = w.attached := rfl

@[simp] theorem World.picks_lock : (w.lock k).picks = w.picks := rfl

@[simp] theorem World.handed_lock : (w.lock k).handed = w.handed := rfl

@[simp] theorem World.refuses_lock : (w.lock k).refuses = w.refuses := rfl

@[simp] theorem World.quiet_lock : (w.lock k).Quiet ↔ w.Quiet := Iff.rfl

@[simp] theorem World.files_unlock : (w.unlock k).files = w.files := rfl

@[simp] theorem World.freed_unlock : (w.unlock k).freed = w.freed := rfl

@[simp] theorem World.attached_unlock : (w.unlock k).attached = w.attached := rfl

@[simp] theorem World.picks_unlock : (w.unlock k).picks = w.picks := rfl

@[simp] theorem World.handed_unlock : (w.unlock k).handed = w.handed := rfl

@[simp] theorem World.refuses_unlock : (w.unlock k).refuses = w.refuses := rfl

@[simp] theorem World.quiet_unlock : (w.unlock k).Quiet ↔ w.Quiet := Iff.rfl

end Lock

/-- A body under a free lock runs as it would alone. -/
theorem withLock_run {α : Type} {a : Allocator} {w : World} (hfree : a.stack ∉ w.held)
    (c : Io α) :
    withLock a c w = ⟨(c (w.lock a.stack)).out, (c (w.lock a.stack)).final.unlock a.stack,
      (c (w.lock a.stack)).cuts⟩ := by
  have hacq : HeldLock.acquire a w = ⟨.ok (), w.lock a.stack, []⟩ := by
    simp only [HeldLock.acquire, Prog.volatile_apply, if_neg hfree]
  rw [withLock, Prog.bind_of_ok hacq, Prog.bind_of_ok (Prog.attempt_apply ..)]
  cases (c (w.lock a.stack)).out with
  | ok v => simp [Prog.bind_of_ok (show HeldLock.drop a _ = ⟨.ok (), _, []⟩ from rfl)]
  | error e => simp [Prog.bind_of_ok (show HeldLock.drop a _ = ⟨.ok (), _, []⟩ from rfl)]

/-! ### The persistent block -/

namespace HeldLock

/-- The offset in the anchor slot, if the allocator has one and it is not null. -/
def readAnchor (a : Allocator) : Io (Option Nat) :=
  match a.walAnchor with
  | none => pure none
  | some slot => do
      let raw ← readU64 a.stack slot
      pure (if raw = 0 then none else some raw)

def corruptWalCapacity : IoError :=
  ⟨.invalidData, "corrupt persistent WAL block: capacity/count out of range"⟩

/-- What `ensure_block` finds behind the anchor: a block that is large enough, one to be replaced
and freed, or none. -/
inductive Existing
  | fits (block : WalBlock)
  | tooSmall (old : Range)
  | absent
deriving DecidableEq, Repr

def existingBlock (a : Allocator) (needed : Nat) : Io Existing := do
  match ← readAnchor a with
  | none => pure .absent
  | some off => do
      let header := WalHeader.decode (← getInto a.stack off WAL_HEADER_SIZE)
      if header.magic = WAL_MAGIC then
        if header.capacity > WAL_MAX_CAP then Prog.fail corruptWalCapacity
        else if header.capacity ≥ needed then pure (.fits (WalBlock.at off header.capacity))
        else pure (.tooSmall (WalBlock.at off header.capacity).range)
      else pure .absent

/-- The slots a fresh block gets. -/
def freshCapacity (needed : Nat) : Nat := nextPowerOfTwo (max needed WAL_MIN_CAP)

/-- Write the idle header of a fresh block, giving the block back when the write fails. -/
def initBlock (a : Allocator) (slice : Range) (capacity : Nat) : Io Unit := do
  match ← Prog.attempt (set a.stack slice.start
      (WalHeader.encode ⟨WAL_MAGIC, WalStatus.none.toU8, 0, capacity⟩)) with
  | .ok () => pure ()
  | .error e => do
      let _ ← Prog.attempt (deallocRange a slice)
      Prog.fail e

/-- Allocate a block, repoint the anchor to it, and only then free the block it replaces. -/
def createBlock (a : Allocator) (slot needed : Nat) (oldToFree : Option Range) : Io WalBlock := do
  let capacity := freshCapacity needed
  let slice ← BStackRaii.alloc a (WAL_HEADER_SIZE + capacity * WAL_ENTRY_SIZE)
  initBlock a slice capacity
  set a.stack slot (leBytes 8 slice.start)
  match oldToFree with
  | some old => deallocRange a old
  | none => pure ()
  pure (WalBlock.at slice.start capacity)

def noAnchor : IoError := ⟨.other, "allocator names no WAL anchor slot"⟩

/-- Reuse the block that was found, or create one. -/
def settleBlock (a : Allocator) (slot needed : Nat) : Existing → Io WalBlock
  | .fits block => pure block
  | .tooSmall old => createBlock a slot needed (some old)
  | .absent => createBlock a slot needed none

def ensureBlock (a : Allocator) (needed : Nat) : Io WalBlock :=
  match a.walAnchor with
  | none => Prog.fail noAnchor
  | some slot => existingBlock a needed >>= settleBlock a slot needed

/-- Stage `log` at `status`, in one write. -/
def persist (a : Allocator) (log : List WalEntry) (status : WalStatus) : Io WalBlock := do
  let block ← ensureBlock a log.length
  set a.stack block.range.start (blockImage log status block.capacity)
  pure block

/-- The staged transaction: its block, its header and its live entries. -/
def load (a : Allocator) : Io (Option (Nat × WalHeader × List WalEntry)) := do
  match ← readAnchor a with
  | none => pure none
  | some off => do
      let header := WalHeader.decode (← getInto a.stack off WAL_HEADER_SIZE)
      if header.magic ≠ WAL_MAGIC then pure none
      else if header.capacity > WAL_MAX_CAP ∨ header.count > header.capacity then
        Prog.fail corruptWalCapacity
      else do
        let ebuf ← getInto a.stack (off + WAL_HEADER_SIZE) (header.count * WAL_ENTRY_SIZE)
        pure (some (off, header, entriesFromBytes header.count ebuf))

def setIdle (a : Allocator) (blockOff : Nat) : Io Unit :=
  set a.stack (blockOff + WAL_STATUS_OFFSET) [WalStatus.none.toU8]

/-- The commit point of a staged transaction. -/
def markComplete (a : Allocator) (blockOff : Nat) : Io Unit :=
  set a.stack (blockOff + WAL_STATUS_OFFSET) [WalStatus.complete.toU8]

/-- Write the entry first; the bump of `count` publishes it. -/
def appendAlloc (a : Allocator) (blockOff index : Nat) (slice : Range) : Io Unit := do
  set a.stack (blockOff + WAL_HEADER_SIZE + index * WAL_ENTRY_SIZE)
    (WalEntry.encode (.alloc .pending slice))
  set a.stack (blockOff + WAL_COUNT_OFFSET) (leBytes 8 (index + 1))

/-! ### Recovery -/

/-- The allocator a recorded slice is freed through: the log's own for `SELF`, else the live host
of the file. A detached file has none, and its slice is left to leak. -/
def resolve (w : World) (a : Allocator) (fileId : Nat) : Option Allocator :=
  if fileId = FileId.SELF then some a else w.attached fileId

def freeRecorded (a : Allocator) (fileId : Nat) (slice : Range) : Io Unit := fun w =>
  match resolve w a fileId with
  | some host => deallocRange host slice w
  | none => Prog.ret () w

/-- The slice an entry owes under the outcome: a `Dealloc` once committed, an `Alloc` before. -/
def orphan (committed : Bool) (e : WalEntry) : Option Range :=
  if e.status = .pending then (if committed then e.asDealloc else e.asAlloc) else none

/-- The recovery loop of a sequential allocator: mark an entry `Complete`, then free its slice.
`i` is the index of the first entry left. -/
def finishEntries (a : Allocator) (committed : Bool) (base : Nat) :
    Nat → List WalEntry → Nat → Io Nat
  | _, [], completed => pure completed
  | i, e :: es, completed =>
      match orphan committed e with
      | none => finishEntries a committed base (i + 1) es completed
      | some slice => do
          set a.stack (base + i * WAL_ENTRY_SIZE) [WalStatus.complete.toU8]
          freeRecorded a e.fileId slice
          finishEntries a committed base (i + 1) es (completed + 1)

/-- The first loop of a bulk allocator: mark every orphan, and split them into the local and the
foreign ones. -/
def markOrphans (a : Allocator) (committed : Bool) (base : Nat) :
    Nat → List WalEntry → Io (List Range × List (Nat × Range))
  | _, [] => pure ([], [])
  | i, e :: es =>
      match orphan committed e with
      | none => markOrphans a committed base (i + 1) es
      | some slice => do
          set a.stack (base + i * WAL_ENTRY_SIZE) [WalStatus.complete.toU8]
          let (localSlices, foreign) ← markOrphans a committed base (i + 1) es
          if e.fileId = FileId.SELF then pure (slice :: localSlices, foreign)
          else pure (localSlices, (e.fileId, slice) :: foreign)

/-- Reverse the local orphans with one bulk free. -/
def freeLocal (a : Allocator) (localSlices : List Range) : Io Unit :=
  if localSlices = [] then pure () else freeMany a localSlices

def finishBulk (a : Allocator) (committed : Bool) (base : Nat) (entries : List WalEntry) :
    Io Nat := do
  let found ← markOrphans a committed base 0 entries
  freeLocal a found.1
  Prog.forEach (fun p => freeRecorded a p.1 p.2) found.2
  pure (found.1.length + found.2.length)

/-- Free every orphan of `entries`, by the allocator's path. -/
def reclaim (a : Allocator) (committed : Bool) (base : Nat) (entries : List WalEntry) : Io Nat :=
  if a.atomicBulk then finishBulk a committed base entries
  else finishEntries a committed base 0 entries 0

/-- Reclaim what the staged transaction orphaned, then mark the block idle. -/
def finish (a : Allocator) : Io Nat := do
  match ← load a with
  | none => pure 0
  | some (off, header, entries) =>
      if header.txnStatus = .none then pure 0
      else do
        let committed := decide (header.txnStatus = .complete)
        let completed ← reclaim a committed (off + WAL_HEADER_SIZE) entries
        setIdle a off
        pure completed

end HeldLock

/-- `wal::finish`: complete a crash-left transaction, as a caller does after `open`. -/
def finish (a : Allocator) : Io Nat := withLock a (HeldLock.finish a)

/-! ### Intention-first transactions -/

/-- `WalTxn`: where the clone in flight logs its allocations. The lock it holds is in `World.held`. -/
structure WalTxn where
  blockOff : Nat
  capacity : Nat
  logged : Nat
deriving DecidableEq, Repr

namespace WalTxn

/-- Begin a transaction with `ranges` staged all at once. -/
def beginMany (a : Allocator) (ranges : List Range) : Io WalTxn := do
  HeldLock.acquire a
  match ← Prog.attempt (HeldLock.persist a (ranges.map (.alloc .pending)) .pending) with
  | .ok block => pure ⟨block.range.start, block.capacity, ranges.length⟩
  | .error e => do
      HeldLock.drop a
      Prog.fail e

/-- Log one more allocation: in place while a slot is free, else by staging the whole log anew. -/
def append (a : Allocator) (t : WalTxn) (loggedSoFar : List Range) (range : Range) : Io WalTxn :=
  if t.logged < t.capacity then do
    HeldLock.appendAlloc a t.blockOff t.logged range
    pure { t with logged := t.logged + 1 }
  else do
    let block ← HeldLock.persist a ((loggedSoFar ++ [range]).map (.alloc .pending)) .pending
    pure ⟨block.range.start, block.capacity, loggedSoFar.length + 1⟩

end WalTxn

/-- Log `range`, beginning the transaction with the first one. -/
def logAlloc (a : Allocator) (wal : Option WalTxn) (allocated : List Range) (range : Range) :
    Io WalTxn :=
  match wal with
  | none => WalTxn.beginMany a [range]
  | some t => t.append a allocated range

/-- What a clone accumulates: its transaction, and every block it has allocated. -/
structure CloneLog where
  wal : Option WalTxn
  allocated : List Range
deriving DecidableEq, Repr

/-- Allocate a block and log it. A block whose logging fails is given back. -/
def allocLogged (a : Allocator) (log : CloneLog) (size : Nat) : Io (CloneLog × Range) := do
  let range ← alloc a size
  if a.walAnchor.isSome then
    match ← Prog.attempt (logAlloc a log.wal log.allocated range) with
    | .ok t => pure (⟨some t, log.allocated ++ [range]⟩, range)
    | .error e => do
        let _ ← Prog.attempt (deallocRange a range)
        Prog.fail e
  else pure (⟨log.wal, log.allocated ++ [range]⟩, range)

/-- What a deep clone does to its own file before it commits: log a fresh block, or fill part of a
block it has. -/
inductive CloneStep
  | alloc (size : Nat)
  | fill (block off : Nat) (data : List UInt8)
deriving DecidableEq, Repr

def cloneStep (a : Allocator) (log : CloneLog) : CloneStep → Io CloneLog
  | .alloc size => do
      let res ← allocLogged a log size
      pure res.1
  | .fill block off data =>
      match log.allocated[block]? with
      | none => Prog.fail outOfBounds
      | some r =>
          if off + data.length ≤ r.len then do
            set a.stack (r.start + off) data
            pure log
          else Prog.fail outOfBounds

def cloneSteps (a : Allocator) : List CloneStep → CloneLog → Io CloneLog
  | [], log => pure log
  | op :: ops, log => do
      let log' ← cloneStep a log op
      cloneSteps a ops log'

/-- The single pass of a clone, from its empty log. -/
def clonePass (a : Allocator) (ops : List CloneStep) : Io CloneLog := cloneSteps a ops ⟨none, []⟩

/-- The number of allocations in a clone. -/
def allocations (ops : List CloneStep) : Nat :=
  ops.countP fun | .alloc _ => true | .fill .. => false

/-! ### Committing frees -/

/-- Stage the frees of `slices`, up to the flip that commits them. -/
def stageFrees (a : Allocator) (slices : List (Nat × Range)) : Io WalBlock :=
  HeldLock.persist a (slices.map fun p => .deallocIn .pending p.1 p.2) .pending

/-- Commit the staged frees, and run them. -/
def commitStaged (a : Allocator) (block : WalBlock) : Io Unit := do
  HeldLock.markComplete a block.range.start
  let _ ← HeldLock.finish a
  pure ()

/-- Commit a batch of frees as one unit: in one bulk free where that is atomic, else through the
log. The allocator's best-effort coalescing afterwards frees and allocates nothing. -/
def commitFrees (a : Allocator) (slices : List (Nat × Range)) : Io Unit :=
  if slices = [] then pure ()
  else if a.atomicBulk ∧ ∀ p ∈ slices, p.1 = FileId.SELF then freeMany a (slices.map Prod.snd)
  else withLock a do
    let block ← stageFrees a slices
    commitStaged a block

end BStackRaii
