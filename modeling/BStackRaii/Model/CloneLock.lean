import BStackRaii.Model.Wal
/-!
# The clone lock between threads

`wal_lock_for` and `HeldLock` of `io_core/wal.rs`, run by any number of threads. The lock of a file is
a mutex that a process-wide registry finds by the key of the file, the address of its stack. The
registry keeps weak references only: an entry is alive while some thread has an `Arc` of its mutex.

`Step i` is one action of the thread `i`: a step under the mutex of the registry, an operation on the
mutex of a file, the drop of an `Arc`, or a change of its own list `HELD_CLONE_LOCKS`.
-/

namespace BStackRaii

namespace CloneLock

/-- Contention of a nested acquisition. -/
def contended : IoError :=
  ⟨.wouldBlock, "clone contends for another file's WAL lock while already holding " ++
    "one (a concurrent cross-file clone is acquiring the same files in " ++
    "the opposite order); retry the clone"⟩

/-- A guard: the `Arc` it keeps alive, and the key of its file. -/
structure HeldLock where
  arc : Nat
  key : Nat
deriving DecidableEq, Repr

/-- Where a thread stands in `acquire`, or in the drop of a guard. -/
inductive Phase
  | idle
  /-- `wal_lock_for`: about to lock the registry, -/
  | entering (key : Nat)
  /-- under its lock, before the lookup, -/
  | looking (key : Nat)
  /-- after a miss, -/
  | missing (key : Nat)
  /-- and after the sweep. -/
  | swept (key : Nat)
  /-- `acquire`: with the `Arc`, before the mutex, -/
  | found (key arc : Nat)
  /-- and with the guard, before the key is recorded. -/
  | locked (key arc : Nat)
  /-- `drop`: the guard is released, the key still recorded. -/
  | unlocked (key arc : Nat)
  /-- Only the `Arc` is left to drop. -/
  | leaving (key arc : Nat)
deriving DecidableEq, Repr

/-- A thread: `HELD_CLONE_LOCKS`, the guards alive, and the error of its last `acquire`. -/
structure Thread where
  phase : Phase
  held : List Nat
  locks : List HeldLock
  refused : Option IoError
deriving DecidableEq, Repr

/-- The threads `ι` and what they share: who has the registry locked, its entries, who has each mutex
locked, and how many mutexes there have been. -/
structure State (ι : Type) where
  registry : Option ι
  entries : Nat → Option Nat
  owner : Nat → Option ι
  next : Nat
  threads : ι → Thread

def Phase.arcs : Phase → List (Nat × Nat)
  | found key arc | locked key arc | unlocked key arc | leaving key arc => [(key, arc)]
  | _ => []

/-- The `Arc`s of a thread, each with the key it was looked up by. -/
def Thread.arcs (t : Thread) : List (Nat × Nat) := t.phase.arcs ++ t.locks.map fun g => (g.key, g.arc)

/-- `HELD_CLONE_LOCKS` without the last entry of `key`: `rposition` and `swap_remove`. -/
def forget (key : Nat) (held : List Nat) : List Nat :=
  match held.reverse.idxOf? key with
  | none => held
  | some back =>
      let pos := held.length - 1 - back
      match held.getLast? with
      | none => held
      | some last => (held.set pos last).dropLast

variable {ι : Type}

/-- `strong_count() > 0`. -/
def State.Live (s : State ι) (arc : Nat) : Prop := ∃ i key, (key, arc) ∈ (s.threads i).arcs

/-- The process before its first lock. -/
def State.new (ι : Type) : State ι := ⟨none, fun _ => none, fun _ => none, 0, fun _ => ⟨.idle, [], [], none⟩⟩

variable [DecidableEq ι]

def State.set (s : State ι) (i : ι) (t : Thread) : State ι := { s with threads := Function.update s.threads i t }

@[simp] theorem State.threads_set_self (s : State ι) (i : ι) (t : Thread) : (s.set i t).threads i = t :=
  Function.update_self ..

theorem State.threads_set_of_ne (s : State ι) {i j : ι} (h : j ≠ i) (t : Thread) :
    (s.set i t).threads j = s.threads j := Function.update_of_ne h ..

/-- One step of the thread `i`. -/
inductive Step (i : ι) : State ι → State ι → Prop
  /-- `acquire` of a file this thread already holds -/
  | reenter {s : State ι} (key : Nat) (hphase : (s.threads i).phase = .idle)
      (hheld : key ∈ (s.threads i).held) :
      Step i s (s.set i { s.threads i with refused := some reentered })
  | enter {s : State ι} (key : Nat) (hphase : (s.threads i).phase = .idle)
      (hheld : key ∉ (s.threads i).held) :
      Step i s (s.set i { s.threads i with phase := .entering key })
  | lookup {s : State ι} (key : Nat) (hphase : (s.threads i).phase = .entering key)
      (hfree : s.registry = none) :
      Step i s ({ s with registry := some i }.set i { s.threads i with phase := .looking key })
  | hit {s : State ι} (key arc : Nat) (hphase : (s.threads i).phase = .looking key)
      (hentry : s.entries key = some arc) (hlive : s.Live arc) :
      Step i s ({ s with registry := none }.set i { s.threads i with phase := .found key arc })
  | miss {s : State ι} (key : Nat) (hphase : (s.threads i).phase = .looking key)
      (hdead : ∀ arc, s.entries key = some arc → ¬ s.Live arc) :
      Step i s (s.set i { s.threads i with phase := .missing key })
  /-- `retain` -/
  | sweep {s : State ι} (key : Nat) (entries : Nat → Option Nat)
      (hphase : (s.threads i).phase = .missing key)
      (hretain : ∀ k arc, entries k = some arc ↔ s.entries k = some arc ∧ s.Live arc) :
      Step i s ({ s with entries }.set i { s.threads i with phase := .swept key })
  | insert {s : State ι} (key : Nat) (hphase : (s.threads i).phase = .swept key) :
      Step i s ({ s with
        registry := none
        entries := Function.update s.entries key (some s.next)
        next := s.next + 1 }.set i { s.threads i with phase := .found key s.next })
  /-- The mutex is free, for `lock` and for `try_lock`. -/
  | lock {s : State ι} (key arc : Nat) (hphase : (s.threads i).phase = .found key arc)
      (hfree : s.owner arc = none) :
      Step i s ({ s with owner := Function.update s.owner arc (some i) }.set i
        { s.threads i with phase := .locked key arc })
  /-- `try_lock` fails; only a nested acquisition uses it. -/
  | contend {s : State ι} (key arc : Nat) (hphase : (s.threads i).phase = .found key arc)
      (hnested : (s.threads i).held ≠ []) (htaken : s.owner arc ≠ none) :
      Step i s (s.set i { s.threads i with phase := .leaving key arc, refused := some contended })
  | record {s : State ι} (key arc : Nat) (hphase : (s.threads i).phase = .locked key arc) :
      Step i s (s.set i ⟨.idle, (s.threads i).held ++ [key], ⟨arc, key⟩ :: (s.threads i).locks, none⟩)
  /-- The drop of any guard of the thread. -/
  | release {s : State ι} (g : HeldLock) (hphase : (s.threads i).phase = .idle)
      (hlock : g ∈ (s.threads i).locks) :
      Step i s ({ s with owner := Function.update s.owner g.arc none }.set i
        { s.threads i with phase := .unlocked g.key g.arc, locks := (s.threads i).locks.erase g })
  | forget {s : State ι} (key arc : Nat) (hphase : (s.threads i).phase = .unlocked key arc) :
      Step i s (s.set i { s.threads i with
        phase := .leaving key arc
        held := CloneLock.forget key (s.threads i).held })
  | leave {s : State ι} (key arc : Nat) (hphase : (s.threads i).phase = .leaving key arc) :
      Step i s (s.set i { s.threads i with phase := .idle })

/-- The thread waits for the mutex of a file: `lock` blocks, with nothing held. -/
def State.Blocks (s : State ι) (i j : ι) : Prop :=
  ∃ key arc, (s.threads i).phase = .found key arc ∧ (s.threads i).held = [] ∧ s.owner arc = some j

/-- The thread waits for another, at the mutex of a file or at that of the registry. -/
def State.WaitsFor (s : State ι) (i j : ι) : Prop :=
  s.Blocks i j ∨ ((∃ key, (s.threads i).phase = .entering key) ∧ s.registry = some j)

/-- Any interleaving of the threads. -/
def Reachable (s : State ι) : Prop :=
  Relation.ReflTransGen (fun s s' : State ι => ∃ i, Step i s s') (State.new ι) s

end CloneLock

end BStackRaii
