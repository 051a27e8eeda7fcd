import BStackRaii.Logic.Threads
import BStackRaii.Model.World
/-!
# Atomic counters on disk

`io_core/refcount.rs` over `BStack::process` and `BStack::cas`, and the offset arithmetic of
`primitives/offset.rs` that locates a counter. Every helper is one atomic step, apart from
`incrementIfNonzero`: its read-only fast path is a step of its own.
-/

namespace BStackRaii

/-! ### Offsets -/

def offsetOverflow : IoError := ⟨.invalidData, "on-disk offset arithmetic overflow"⟩

def blockOffsetOverflow : IoError := ⟨.invalidData, "block offset overflow"⟩

def nullField : IoError := ⟨.invalidData, "field offset resolved to null"⟩

/-- `NonNullOffset::checked_add`. -/
def checkedAdd (offset delta : Nat) : Except IoError Nat :=
  if offset + delta < 2 ^ 64 then .ok (offset + delta) else .error offsetOverflow

def checkedOff (base delta : Nat) : Except IoError Nat :=
  if base + delta < 2 ^ 64 then .ok (base + delta) else .error blockOffsetOverflow

/-- `NonNullOffset::from_field`. -/
def fromField (off : Nat) : Except IoError Nat := if off = 0 then .error nullField else .ok off

theorem checkedAdd_ok {offset delta : Nat} (h : offset + delta < 2 ^ 64) :
    checkedAdd offset delta = .ok (offset + delta) := if_pos h

theorem checkedOff_ok {base delta : Nat} (h : base + delta < 2 ^ 64) :
    checkedOff base delta = .ok (base + delta) := if_pos h

theorem fromField_ok {off : Nat} (h : 0 < off) : fromField off = .ok off := if_neg (Nat.ne_of_gt h)

/-! ### Atomic read-modify-write -/

/-- `BStack::process`: rewrite the bytes from `off` to `stop` in one step. The closure's captures
come back as its second result. -/
def process {α : Type} (k off stop : Nat) (f : List UInt8 → List UInt8 × α) : Io α :=
  Prog.durable fun w =>
    if w.Faulty then (.error ioFault, w.tick)
    else if stop ≤ (w.files k).len then
      let (bytes, a) := f ((w.files k).bytes.read off (stop - off))
      (.ok a, w.tick.store k off bytes)
    else (.error outOfBounds, w.tick)

/-- `BStack::cas`. -/
def compareSwap (k off : Nat) (expected new : List UInt8) : Io Bool :=
  Prog.durable fun w =>
    if w.Faulty then (.error ioFault, w.tick)
    else if off + expected.length ≤ (w.files k).len then
      if (w.files k).bytes.read off expected.length = expected then
        (.ok true, w.tick.store k off new)
      else (.ok false, w.tick)
    else (.error outOfBounds, w.tick)

/-! ### The counter helpers -/

namespace Refcount

def overflowErr : IoError := ⟨.invalidData, "refcount overflow"⟩

def underflowErr : IoError := ⟨.invalidData, "refcount underflow"⟩

def cas (k offset expected new : Nat) : Script IoError World Bool :=
  .atom (compareSwap k offset (leBytes 8 expected) (leBytes 8 new))

def load (k offset : Nat) : Script IoError World Nat := .atom (readU64 k offset)

/-- A read-modify-write by the closure `update`, which yields the new bytes, the previous value, and
the flag that makes the call fail with `refused`. -/
def fetchWith (update : List UInt8 → List UInt8 × Nat × Bool) (refused : IoError) (k offset : Nat) :
    Script IoError World Nat := do
  let stop ← .lift (checkedAdd offset 8)
  let (prev, refusal) ← .atom (process k offset stop update)
  if refusal then .fail refused else pure prev

def addCounter (delta : Nat) (buf : List UInt8) : List UInt8 × Nat × Bool :=
  if leNat buf + delta < 2 ^ 64 then (leBytes 8 (leNat buf + delta), leNat buf, false)
  else (buf, leNat buf, true)

def fetchAdd (k offset delta : Nat) : Script IoError World Nat :=
  fetchWith (addCounter delta) overflowErr k offset

def subCounter (delta : Nat) (buf : List UInt8) : List UInt8 × Nat × Bool :=
  if delta ≤ leNat buf then (leBytes 8 (leNat buf - delta), leNat buf, false)
  else (buf, leNat buf, true)

def fetchSub (k offset delta : Nat) : Script IoError World Nat :=
  fetchWith (subCounter delta) underflowErr k offset

/-- The closure of `increment_if_nonzero`: a counter that raced to zero stays there. -/
def bumpCounter (buf : List UInt8) : List UInt8 × Option Nat × Bool :=
  if leNat buf = 0 then (buf, none, false)
  else if leNat buf + 1 < 2 ^ 64 then (leBytes 8 (leNat buf + 1), some (leNat buf + 1), false)
  else (buf, none, true)

def incrementIfNonzero (k offset : Nat) : Script IoError World (Option Nat) := do
  let cur ← load k offset
  if cur = 0 then pure none
  else do
    let stop ← .lift (checkedAdd offset 8)
    let (result, overflow) ← .atom (process k offset stop bumpCounter)
    if overflow then .fail overflowErr else pure result

end Refcount

/-! ### The steps when no I/O step fails -/

section Quiet

variable {w : World} {k off : Nat}

theorem process_run {α : Type} {f : List UInt8 → List UInt8 × α} (hq : w.Quiet)
    (h : off + 8 ≤ (w.files k).len) :
    process k off (off + 8) f w =
      ⟨.ok (f ((w.files k).bytes.read off 8)).2,
        w.store k off (f ((w.files k).bytes.read off 8)).1, [w]⟩ := by
  simp only [process, Prog.durable_apply, if_neg hq.not_faulty, if_pos h, hq.tick_eq,
    Nat.add_sub_cancel_left]

theorem compareSwap_run {expected new : List UInt8} (hq : w.Quiet)
    (h : off + expected.length ≤ (w.files k).len) :
    compareSwap k off expected new w =
      if (w.files k).bytes.read off expected.length = expected then
        ⟨.ok true, w.store k off new, [w]⟩
      else ⟨.ok false, w, [w]⟩ := by
  simp only [compareSwap, Prog.durable_apply, if_neg hq.not_faulty, if_pos h, hq.tick_eq]
  split <;> rfl

end Quiet

end BStackRaii
