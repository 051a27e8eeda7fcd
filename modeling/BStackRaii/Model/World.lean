import BStackRaii.Logic.Run
import BStackRaii.Logic.Bytes
import BStackRaii.Logic.Ranges
import Mathlib.Logic.Function.Basic
/-!
# Files, allocators and their primitive operations

A file is its payload bytes together with the blocks its allocator has handed out. The world holds
every open file, the process-wide file registry and the locks this thread holds. Three oracles make
it total: `picks` chooses the place of each allocation, `faults` fails any I/O step, and `refuses` says
what an allocator makes of a range that is not one of its live blocks.

Each stack operation and each `alloc` / `dealloc` is one atomic step. A crash falls between steps.
-/

namespace BStackRaii

/-! ### Errors -/

inductive ErrorKind
  | invalidData
  | invalidInput
  | wouldBlock
  | unsupported
  | notFound
  | outOfMemory
  | unexpectedEof
  | other
deriving DecidableEq, Repr

structure IoError where
  kind : ErrorKind
  msg : String
deriving DecidableEq, Repr

/-! ### Files -/

/-- One file: payload bytes, payload length, and the blocks handed out and not yet freed.
The first 16 bytes are the region every allocator reserves for its user. -/
structure File where
  bytes : Mem
  len : Nat
  live : List Range
  apart : live.Pairwise Range.Apart
  inside : ∀ r ∈ live, 16 ≤ r.start ∧ r.stop ≤ len
  addressable : len < 2 ^ 64

namespace File

/-- The places an allocation may take. -/
def Admits (f : File) (r : Range) : Prop :=
  16 ≤ r.start ∧ r.stop < 2 ^ 64 ∧ ∀ b ∈ f.live, b.Apart r

instance (f : File) (r : Range) : Decidable (f.Admits r) := inferInstanceAs (Decidable (_ ∧ _))

/-- Hand out `r`, zero-initialised. -/
def allocAt (f : File) (r : Range) (h : f.Admits r) : File where
  bytes := f.bytes.write r.start (List.replicate r.len 0)
  len := max f.len r.stop
  live := r :: f.live
  apart := List.pairwise_cons.mpr ⟨fun b hb => (h.2.2 b hb).symm, f.apart⟩
  inside := by
    intro b hb
    rcases List.mem_cons.mp hb with rfl | hb
    · exact ⟨h.1, Nat.le_max_right _ _⟩
    · exact ⟨(f.inside b hb).1, Nat.le_trans (f.inside b hb).2 (Nat.le_max_left _ _)⟩
  addressable := Nat.max_lt.mpr ⟨f.addressable, h.2.1⟩

def free (f : File) (r : Range) : File where
  bytes := f.bytes
  len := f.len
  live := f.live.erase r
  apart := f.apart.sublist List.erase_sublist
  inside := fun b hb => f.inside b (List.mem_of_mem_erase hb)
  addressable := f.addressable

def write (f : File) (off : Nat) (data : List UInt8) : File where
  bytes := f.bytes.write off data
  len := f.len
  live := f.live
  apart := f.apart
  inside := f.inside
  addressable := f.addressable

variable (f : File) (r : Range) (off : Nat) (data : List UInt8)

@[simp] theorem bytes_allocAt (h : f.Admits r) :
    (f.allocAt r h).bytes = f.bytes.write r.start (List.replicate r.len 0) := rfl

@[simp] theorem len_allocAt (h : f.Admits r) : (f.allocAt r h).len = max f.len r.stop := rfl

@[simp] theorem live_allocAt (h : f.Admits r) : (f.allocAt r h).live = r :: f.live := rfl

@[simp] theorem bytes_free : (f.free r).bytes = f.bytes := rfl

@[simp] theorem len_free : (f.free r).len = f.len := rfl

@[simp] theorem live_free : (f.free r).live = f.live.erase r := rfl

@[simp] theorem bytes_write : (f.write off data).bytes = f.bytes.write off data := rfl

@[simp] theorem len_write : (f.write off data).len = f.len := rfl

@[simp] theorem live_write : (f.write off data).live = f.live := rfl

theorem nodup_live : f.live.Nodup := nodup_of_apart f.apart

/-- Freeing a range that is no block changes nothing. -/
theorem free_of_not_live {f : File} {r : Range} (h : r ∉ f.live) : f.free r = f := by
  obtain ⟨bytes, len, live, apart, inside, addressable⟩ := f
  simp only [free, File.mk.injEq, true_and]
  exact List.erase_of_not_mem h

end File

/-- A file just created: the reserved region, and no block. -/
def File.blank : File where
  bytes := fun _ => 0
  len := 16
  live := []
  apart := List.Pairwise.nil
  inside := by simp
  addressable := by decide

/-! ### Allocators and the world -/

/-- An allocator as the library sees it: the file it serves, whether its bulk operations are atomic,
its WAL anchor slot, and the file id its frees are tagged with (0 for its own file). -/
structure Allocator where
  stack : Nat
  atomicBulk : Bool
  walAnchor : Option Nat
  walFileId : Nat
deriving DecidableEq, Repr

/-- Files are keyed by the identity of their `BStack`, as the WAL locks are. `handed` records every range
that was given to `dealloc`, in order, whatever came of it, and `freed` those whose `dealloc` returned.
`attached`, `held`, `picks` and `faults` do not outlive the process. -/
structure World where
  files : Nat → File
  attached : Nat → Option Allocator
  held : List Nat
  picks : List Nat
  faults : List Bool
  freed : List (Nat × Range)
  handed : List (Nat × Range)
  refuses : Nat → Range → Bool

/-- Effectful code: failures, and the states a crash may leave. -/
abbrev Io (α : Type) : Type := Prog IoError World α

namespace World

def setFile (w : World) (k : Nat) (f : File) : World :=
  { w with files := Function.update w.files k f }

/-- A process that has just created its files. -/
def blank (picks : List Nat) : World :=
  ⟨fun _ => File.blank, fun _ => none, [], picks, [], [], [], fun _ _ => false⟩

/-- Move on to the next I/O step. -/
def tick (w : World) : World := { w with faults := w.faults.tail }

/-- The next I/O step fails. -/
def Faulty (w : World) : Prop := w.faults.head? = some true

instance (w : World) : Decidable w.Faulty := inferInstanceAs (Decidable (_ = _))

/-- No I/O step from here on fails. -/
def Quiet (w : World) : Prop := w.faults = []

instance (w : World) : Decidable w.Quiet := inferInstanceAs (Decidable (_ = _))

/-- The allocator of file `k` takes `r` back: a live block, or a range it does not look into. -/
def Takes (w : World) (k : Nat) (r : Range) : Prop := r ∈ (w.files k).live ∨ w.refuses k r = false

instance (w : World) (k : Nat) (r : Range) : Decidable (w.Takes k r) := inferInstanceAs (Decidable (_ ∨ _))

variable (w : World) (k : Nat) (f : File)

@[simp] theorem files_setFile_same : (w.setFile k f).files k = f := Function.update_self ..

theorem files_setFile_ne {k j : Nat} (h : j ≠ k) : (w.setFile k f).files j = w.files j :=
  Function.update_of_ne h ..

@[simp] theorem attached_setFile : (w.setFile k f).attached = w.attached := rfl

@[simp] theorem held_setFile : (w.setFile k f).held = w.held := rfl

@[simp] theorem picks_setFile : (w.setFile k f).picks = w.picks := rfl

@[simp] theorem faults_setFile : (w.setFile k f).faults = w.faults := rfl

@[simp] theorem freed_setFile : (w.setFile k f).freed = w.freed := rfl

@[simp] theorem handed_setFile : (w.setFile k f).handed = w.handed := rfl

@[simp] theorem refuses_setFile : (w.setFile k f).refuses = w.refuses := rfl

@[simp] theorem files_tick : w.tick.files = w.files := rfl

@[simp] theorem attached_tick : w.tick.attached = w.attached := rfl

@[simp] theorem held_tick : w.tick.held = w.held := rfl

@[simp] theorem picks_tick : w.tick.picks = w.picks := rfl

@[simp] theorem freed_tick : w.tick.freed = w.freed := rfl

@[simp] theorem handed_tick : w.tick.handed = w.handed := rfl

@[simp] theorem refuses_tick : w.tick.refuses = w.refuses := rfl

theorem Quiet.tick_eq {w : World} (h : w.Quiet) : w.tick = w := by
  obtain ⟨files, attached, held, picks, faults, freed, handed, refuses⟩ := w
  cases h
  rfl

theorem Quiet.not_faulty {w : World} (h : w.Quiet) : ¬ w.Faulty := by
  simp [Faulty, show w.faults = [] from h]

/-- The world once `data` is written at `off` in file `k`. -/
def store (k off : Nat) (data : List UInt8) : World := w.setFile k ((w.files k).write off data)

/-- The world once the writes `ws`, pairs of an offset and its bytes, are made in file `k`. -/
def storeAll (k : Nat) : List (Nat × List UInt8) → World → World
  | [], w => w
  | (off, data) :: ws, w => storeAll k ws (w.store k off data)

/-- The world once `r` is handed out in file `k`. -/
def grant (k : Nat) (r : Range) (h : (w.files k).Admits r) : World :=
  { w.setFile k ((w.files k).allocAt r h) with picks := w.picks.tail }

/-- The world once `r` was given to `dealloc` in file `k`, in vain. -/
def handIn (k : Nat) (r : Range) : World := { w with handed := w.handed ++ [(k, r)] }

/-- The world once `r` is freed in file `k`. -/
def release (k : Nat) (r : Range) : World :=
  { w.setFile k ((w.files k).free r) with freed := w.freed ++ [(k, r)], handed := w.handed ++ [(k, r)] }

section Steps

variable {w} {k : Nat} {off : Nat} {data : List UInt8} {r : Range} {h : (w.files k).Admits r}

@[simp] theorem files_store_same : (w.store k off data).files k = (w.files k).write off data :=
  files_setFile_same ..

@[simp] theorem files_grant_same : (w.grant k r h).files k = (w.files k).allocAt r h :=
  files_setFile_same ..

@[simp] theorem files_release_same : (w.release k r).files k = (w.files k).free r :=
  files_setFile_same ..

theorem files_store_ne {j : Nat} (hj : j ≠ k) : (w.store k off data).files j = w.files j :=
  files_setFile_ne w _ hj

theorem files_grant_ne {j : Nat} (hj : j ≠ k) : (w.grant k r h).files j = w.files j :=
  files_setFile_ne w _ hj

theorem files_release_ne {j : Nat} (hj : j ≠ k) : (w.release k r).files j = w.files j :=
  files_setFile_ne w _ hj

@[simp] theorem live_store (j : Nat) :
    ((w.store k off data).files j).live = (w.files j).live := by
  by_cases hj : j = k
  · subst hj
    rw [files_store_same, File.live_write]
  · rw [files_store_ne hj]

theorem mem_live_grant {j : Nat} {b : Range} (hb : b ∈ (w.files j).live) :
    b ∈ ((w.grant k r h).files j).live := by
  by_cases hj : j = k
  · subst hj
    rw [files_grant_same, File.live_allocAt]
    exact List.mem_cons_of_mem _ hb
  · rwa [files_grant_ne hj]

theorem not_mem_live_release : r ∉ ((w.release k r).files k).live := by
  rw [files_release_same, File.live_free]
  exact (w.files k).nodup_live.not_mem_erase

/-- A free takes one block from one file. -/
theorem mem_live_release {x : Nat × Range} (hx : x ≠ (k, r)) :
    x.2 ∈ ((w.release k r).files x.1).live ↔ x.2 ∈ (w.files x.1).live := by
  by_cases hk : x.1 = k
  · have hne : x.2 ≠ r := fun he => hx (Prod.ext hk he)
    rw [hk, files_release_same, File.live_free, List.mem_erase_of_ne hne]
  · rw [files_release_ne hk]

@[simp] theorem files_storeAll_same (ws : List (Nat × List UInt8)) :
    ((World.storeAll k ws w).files k).bytes = Mem.writeAll ws (w.files k).bytes := by
  induction ws generalizing w with
  | nil => rfl
  | cons x ws ih => rw [World.storeAll, ih, files_store_same, File.bytes_write, Mem.writeAll]

@[simp] theorem live_storeAll (ws : List (Nat × List UInt8)) (j : Nat) :
    ((World.storeAll k ws w).files j).live = (w.files j).live := by
  induction ws generalizing w with
  | nil => rfl
  | cons x ws ih => rw [World.storeAll, ih, live_store]

@[simp] theorem freed_storeAll (ws : List (Nat × List UInt8)) :
    (World.storeAll k ws w).freed = w.freed := by
  induction ws generalizing w with
  | nil => rfl
  | cons x ws ih =>
      rw [World.storeAll, ih]
      rfl

@[simp] theorem faults_storeAll (ws : List (Nat × List UInt8)) :
    (World.storeAll k ws w).faults = w.faults := by
  induction ws generalizing w with
  | nil => rfl
  | cons x ws ih =>
      rw [World.storeAll, ih]
      rfl

@[simp] theorem picks_storeAll (ws : List (Nat × List UInt8)) :
    (World.storeAll k ws w).picks = w.picks := by
  induction ws generalizing w with
  | nil => rfl
  | cons x ws ih =>
      rw [World.storeAll, ih]
      rfl

@[simp] theorem freed_store : (w.store k off data).freed = w.freed := rfl

@[simp] theorem freed_grant : (w.grant k r h).freed = w.freed := rfl

@[simp] theorem freed_release : (w.release k r).freed = w.freed ++ [(k, r)] := rfl

@[simp] theorem handed_store : (w.store k off data).handed = w.handed := rfl

@[simp] theorem handed_grant : (w.grant k r h).handed = w.handed := rfl

@[simp] theorem handed_release : (w.release k r).handed = w.handed ++ [(k, r)] := rfl

@[simp] theorem refuses_store : (w.store k off data).refuses = w.refuses := rfl

@[simp] theorem refuses_grant : (w.grant k r h).refuses = w.refuses := rfl

@[simp] theorem refuses_release : (w.release k r).refuses = w.refuses := rfl

@[simp] theorem files_handIn : (w.handIn k r).files = w.files := rfl

@[simp] theorem freed_handIn : (w.handIn k r).freed = w.freed := rfl

@[simp] theorem handed_handIn : (w.handIn k r).handed = w.handed ++ [(k, r)] := rfl

@[simp] theorem attached_handIn : (w.handIn k r).attached = w.attached := rfl

@[simp] theorem held_handIn : (w.handIn k r).held = w.held := rfl

@[simp] theorem picks_handIn : (w.handIn k r).picks = w.picks := rfl

@[simp] theorem faults_handIn : (w.handIn k r).faults = w.faults := rfl

@[simp] theorem refuses_handIn : (w.handIn k r).refuses = w.refuses := rfl

@[simp] theorem attached_store : (w.store k off data).attached = w.attached := rfl

@[simp] theorem attached_grant : (w.grant k r h).attached = w.attached := rfl

@[simp] theorem attached_release : (w.release k r).attached = w.attached := rfl

@[simp] theorem held_store : (w.store k off data).held = w.held := rfl

@[simp] theorem held_grant : (w.grant k r h).held = w.held := rfl

@[simp] theorem held_release : (w.release k r).held = w.held := rfl

@[simp] theorem picks_store : (w.store k off data).picks = w.picks := rfl

@[simp] theorem picks_grant : (w.grant k r h).picks = w.picks.tail := rfl

@[simp] theorem picks_release : (w.release k r).picks = w.picks := rfl

end Steps

/-- `w'` has the files of `w` and its records. -/
structure Alike (w w' : World) : Prop where
  files : w'.files = w.files
  freed : w'.freed = w.freed
  handed : w'.handed = w.handed

theorem Alike.trans {w w' w'' : World} (h : Alike w w') (h' : Alike w' w'') : Alike w w'' :=
  ⟨h'.files.trans h.files, h'.freed.trans h.freed, h'.handed.trans h.handed⟩

/-- What a restart keeps of a world: the files, their allocators' ways, and the records. The opener
chooses the rest. -/
structure Reopened (w w' : World) : Prop where
  files : w'.files = w.files
  freed : w'.freed = w.freed
  handed : w'.handed = w.handed
  refuses : w'.refuses = w.refuses
  unlocked : w'.held = []
  quiet : w'.Quiet

end World

/-! ### The primitive steps -/

/-- The size of the header every typed block starts with. -/
def HEADER_SIZE : Nat := 16

def ioFault : IoError := ⟨.other, "I/O error"⟩

def outOfBounds : IoError := ⟨.invalidInput, "range outside the payload"⟩

def outOfSpace : IoError := ⟨.outOfMemory, "allocation failed"⟩

def notAllocated : IoError := ⟨.invalidInput, "range is not a live allocation"⟩

/-- `BStack::get_into`: the `n` bytes at `off`. -/
def getInto (k off n : Nat) : Io (List UInt8) := Prog.volatile fun w =>
  if w.Faulty then (.error ioFault, w.tick)
  else if off + n ≤ (w.files k).len then (.ok ((w.files k).bytes.read off n), w.tick)
  else (.error outOfBounds, w.tick)

/-- `BStack::set`: one atomic write in place. -/
def set (k off : Nat) (data : List UInt8) : Io Unit := Prog.durable fun w =>
  if w.Faulty then (.error ioFault, w.tick)
  else if off + data.length ≤ (w.files k).len then
    (.ok (), w.tick.store k off data)
  else (.error outOfBounds, w.tick)

/-- `BStack::set_batched`: writes in place, all of them in one atomic step or none. -/
def setBatched (k : Nat) (ws : List (Nat × List UInt8)) : Io Unit := Prog.durable fun w =>
  if w.Faulty then (.error ioFault, w.tick)
  else if ∀ x ∈ ws, x.1 + x.2.length ≤ (w.files k).len then (.ok (), World.storeAll k ws w.tick)
  else (.error outOfBounds, w.tick)

/-- `BStackAllocator::alloc`, at the place the oracle picks. -/
def alloc (a : Allocator) (size : Nat) : Io Range := Prog.durable fun w =>
  if w.Faulty then (.error ioFault, w.tick)
  else match w.picks with
    | [] => (.error outOfSpace, w.tick)
    | p :: picks =>
        if h : (w.files a.stack).Admits ⟨p, size⟩ then
          (.ok ⟨p, size⟩, w.tick.grant a.stack ⟨p, size⟩ h)
        else (.error outOfSpace, { w.tick with picks })

/-- `BStackAllocator::dealloc` of an owned range. The allocator is not under our control: one that checks
refuses a range that is no live block, another one takes it and goes on. -/
def deallocRange (a : Allocator) (r : Range) : Io Unit := Prog.durable fun w =>
  if w.Faulty then (.error ioFault, w.tick.handIn a.stack r)
  else if w.Takes a.stack r then
    (.ok (), w.tick.release a.stack r)
  else (.error notAllocated, w.tick.handIn a.stack r)

/-- The frees of one atomic `dealloc_bulk`. -/
def freeAll (a : Allocator) : List Range → World → Option World
  | [], w => some w
  | r :: rs, w =>
      if w.Takes a.stack r then
        freeAll a rs (w.release a.stack r)
      else none

/-- Every range of a bulk free that failed was given to the allocator. -/
def World.handInAll (k : Nat) (rs : List Range) (w : World) : World :=
  { w with handed := w.handed ++ rs.map fun r => (k, r) }

/-- `bulk_free_many`: all of the ranges in one step, or none of them. -/
def bulkFreeMany (a : Allocator) (rs : List Range) : Io Unit := Prog.durable fun w =>
  if w.Faulty then (.error ioFault, w.tick.handInAll a.stack rs)
  else match freeAll a rs w.tick with
    | some w' => (.ok (), w')
    | none => (.error notAllocated, w.tick.handInAll a.stack rs)

/-- `seq_free_many`: free every range it can, and report the first failure at the end. -/
def seqFreeMany (a : Allocator) : List Range → Io Unit
  | [] => pure ()
  | r :: rs => do
      let first ← Prog.attempt (deallocRange a r)
      let rest ← Prog.attempt (seqFreeMany a rs)
      Prog.lift first
      Prog.lift rest

/-- `BStackRaiiAllocator::free_many`. -/
def freeMany (a : Allocator) (rs : List Range) : Io Unit :=
  if a.atomicBulk then bulkFreeMany a rs else seqFreeMany a rs

/-- `util::bytes::read_u64`. -/
def readU64 (k off : Nat) : Io Nat := do
  let buf ← getInto k off 8
  pure (leNat buf)

theorem World.Takes.of_live {w : World} {k : Nat} {r : Range} (h : r ∈ (w.files k).live) : w.Takes k r := .inl h

/-- Only a fault keeps a live block from being freed. -/
theorem deallocRange_if {a : Allocator} {r : Range} {w : World} (h : r ∈ (w.files a.stack).live) :
    deallocRange a r w = if w.Faulty then ⟨.error ioFault, w.tick.handIn a.stack r, [w]⟩
      else ⟨.ok (), w.tick.release a.stack r, [w]⟩ := by
  simp only [deallocRange, Prog.durable_apply, if_pos (World.Takes.of_live h)]
  split <;> rfl

/-- A write fails and changes no file, or it lands. -/
theorem set_cases (k off : Nat) (data : List UInt8) (w : World) :
    (∃ e w', set k off data w = ⟨.error e, w', [w]⟩ ∧ World.Alike w w') ∨
      set k off data w = ⟨.ok (), w.tick.store k off data, [w]⟩ := by
  simp only [set, Prog.durable_apply]
  split
  · exact .inl ⟨_, _, rfl, rfl, rfl, rfl⟩
  · split
    · exact .inr rfl
    · exact .inl ⟨_, _, rfl, rfl, rfl, rfl⟩

/-! ### The primitive steps when no I/O step fails -/

section Quiet

variable {w : World} {a : Allocator} {k off n p size : Nat} {data : List UInt8} {r : Range}

@[simp] theorem World.quiet_setFile {f : File} : (w.setFile k f).Quiet ↔ w.Quiet := Iff.rfl

@[simp] theorem World.quiet_store : (w.store k off data).Quiet ↔ w.Quiet := Iff.rfl

@[simp] theorem World.quiet_grant {h : (w.files k).Admits r} : (w.grant k r h).Quiet ↔ w.Quiet :=
  Iff.rfl

@[simp] theorem World.quiet_release : (w.release k r).Quiet ↔ w.Quiet := Iff.rfl

@[simp] theorem World.quiet_handIn : (w.handIn k r).Quiet ↔ w.Quiet := Iff.rfl

theorem getInto_run (hq : w.Quiet) (h : off + n ≤ (w.files k).len) :
    getInto k off n w = ⟨.ok ((w.files k).bytes.read off n), w, []⟩ := by
  simp only [getInto, Prog.volatile_apply, if_neg hq.not_faulty, if_pos h, hq.tick_eq]

theorem readU64_run (hq : w.Quiet) (h : off + 8 ≤ (w.files k).len) :
    readU64 k off w = ⟨.ok ((w.files k).bytes.word off), w, []⟩ := by
  rw [readU64, Prog.bind_of_ok (getInto_run hq h)]
  rfl

theorem set_run (k off : Nat) (data : List UInt8) (hq : w.Quiet) (h : off + data.length ≤ (w.files k).len) :
    set k off data w = ⟨.ok (), w.store k off data, [w]⟩ := by
  simp only [set, Prog.durable_apply, if_neg hq.not_faulty, if_pos h, hq.tick_eq]

theorem alloc_run {ps : List Nat} (hq : w.Quiet) (hp : w.picks = p :: ps)
    (h : (w.files a.stack).Admits ⟨p, size⟩) :
    alloc a size w = ⟨.ok ⟨p, size⟩, w.grant a.stack ⟨p, size⟩ h, [w]⟩ := by
  simp only [alloc, Prog.durable_apply, if_neg hq.not_faulty, hp, dif_pos h, hq.tick_eq]

/-- An allocation fails and changes no file, or takes the place the oracle picked. -/
theorem alloc_cases (a : Allocator) (size : Nat) (hq : w.Quiet) :
    (∃ e w', alloc a size w = ⟨.error e, w', [w]⟩ ∧ World.Alike w w') ∨
    ∃ r, ∃ h : (w.files a.stack).Admits r, r.len = size ∧
      alloc a size w = ⟨.ok r, w.grant a.stack r h, [w]⟩ := by
  cases hp : w.picks with
  | nil => exact .inl ⟨outOfSpace, w.tick, by simp [alloc, hq.not_faulty, hp], rfl, rfl, rfl⟩
  | cons p ps =>
      by_cases h : (w.files a.stack).Admits ⟨p, size⟩
      · exact .inr ⟨_, h, rfl, alloc_run hq hp h⟩
      · exact .inl ⟨outOfSpace, { w.tick with picks := ps },
          by simp [alloc, hq.not_faulty, hp, dif_neg h], rfl, rfl, rfl⟩

theorem alloc_inv (hq : w.Quiet) (hok : (alloc a size w).out = .ok r) :
    ∃ h : (w.files a.stack).Admits r, r.len = size ∧
      alloc a size w = ⟨.ok r, w.grant a.stack r h, [w]⟩ := by
  rcases alloc_cases a size hq with ⟨e, w', hrun, -⟩ | ⟨r', h, hsize, hrun⟩
  · rw [hrun] at hok
    cases hok
  · rw [hrun] at hok
    cases hok
    exact ⟨h, hsize, hrun⟩

theorem deallocRange_run (hq : w.Quiet) (h : r ∈ (w.files a.stack).live) :
    deallocRange a r w = ⟨.ok (), w.release a.stack r, [w]⟩ := by
  rw [deallocRange_if h, if_neg hq.not_faulty, hq.tick_eq]

theorem deallocRange_cases (a : Allocator) (r : Range) (hq : w.Quiet) :
    deallocRange a r w = ⟨.error notAllocated, w.handIn a.stack r, [w]⟩ ∨
      deallocRange a r w = ⟨.ok (), w.release a.stack r, [w]⟩ := by
  by_cases h : w.Takes a.stack r
  · right
    simp only [deallocRange, Prog.durable_apply, if_neg hq.not_faulty, if_pos h, hq.tick_eq]
  · left
    simp only [deallocRange, Prog.durable_apply, if_neg hq.not_faulty, if_neg h, hq.tick_eq]

end Quiet

end BStackRaii
