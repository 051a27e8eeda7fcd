import BStackRaii.Model.Wal
import BStackRaii.Model.Read
/-!
# The file registry

`io_core/registry.rs`. The store is an append-only log of `[len | path]` records, and a file's id is
the place of its record, from one on. In memory are the paths, their reverse map, the host attached
under each id, and the reverse map of the hosts by the address of their stack.

Paths are unix paths: bytes, of which only the components count in a comparison.
-/

namespace BStackRaii

abbrev Path := List UInt8

namespace Path

def slash : UInt8 := 47

def dot : Path := [46]

/-- `Path::components`: whether the path has a root, and its parts. Empty parts do not count, nor does
`.`, except at the beginning of a path without a root. Two paths are equal if their components are. -/
def components (p : Path) : Bool × List Path :=
  let rooted := p.head? = some slash
  match p.splitOn slash with
  | [] => (rooted, [])
  | first :: rest =>
      let first := if first = [] then [] else [first]
      (rooted, first ++ rest.filter fun part => part ≠ [] ∧ part ≠ dot)

end Path

namespace FileId

/-- The lowest id with a special meaning. -/
def SPECIAL_FLOOR : Nat := 2 ^ 32 - 1 - 0xFFFF

/-- The index in the path table. -/
def tableIndex (id : Nat) : Option Nat := if 1 ≤ id ∧ ¬ SPECIAL_FLOOR ≤ id then some (id - 1) else none

/-- `i as u32 + 1` -/
def ofIndex (i : Nat) : Nat := (i % 2 ^ 32 + 1) % 2 ^ 32

end FileId

/-- An open allocator: the address of its stack. -/
structure Host where
  stack : Nat
deriving DecidableEq, Repr

/-! ### The log -/

namespace RegistryStore

/-- One record of the log. -/
def record (path : Path) : List UInt8 := leBytes 8 path.length ++ path

/-- The loop of `load`, in at most `turns` turns from `cur` on. -/
def loadLoop (buf : List UInt8) : Nat → Nat → List Path → List Path
  | 0, _, paths => paths
  | turns + 1, cur, paths =>
      if cur + 8 ≤ buf.length then
        let len := leNat ((buf.drop cur).take 8)
        let start := cur + 8
        if start + len < 2 ^ 64 ∧ start + len ≤ buf.length then
          loadLoop buf turns (start + len) (paths ++ [(buf.drop start).take len])
        else paths
      else paths

/-- The path table of a log. Every turn of the loop moves past eight bytes. -/
def load (log : List UInt8) : List Path := loadLoop log (log.length / 8) 0 []

/-- `push` of one record, whose outcome is `pushed` where the length of the log stays a `u64`. -/
def append (log : List UInt8) (path : Path) (pushed : Except IoError Unit) : Except IoError (List UInt8) := do
  if (log ++ record path).length < 2 ^ 64 then pushed else throw outOfSpace
  pure (log ++ record path)

end RegistryStore

/-! ### The registry -/

structure FileRegistry where
  paths : List Path
  byPath : Bool × List Path → Option Nat
  live : List (Option Host)
  byStack : Nat → Option Nat
  log : List UInt8

namespace FileRegistry

def exhausted : IoError := ⟨.outOfMemory, "file registry exhausted the ordinary id space"⟩

def aliased : IoError :=
  ⟨.invalidInput, "attach: this host is already attached under a different FileId"⟩

/-- The panic of `attach` on an id without a slot. -/
def noSlot : IoError := ⟨.other, "register_path returns a concrete 1-based id"⟩

/-- The reverse map of a path table. Of equal paths, the last one counts. -/
def collect (paths : List Path) : Bool × List Path → Option Nat :=
  (paths.zipIdx).foldl (fun m e => Function.update m e.1.components (some (FileId.ofIndex e.2))) fun _ => none

def openLog (log : List UInt8) : FileRegistry where
  paths := RegistryStore.load log
  byPath := collect (RegistryStore.load log)
  live := List.replicate (RegistryStore.load log).length none
  byStack := fun _ => none
  log := log

variable (g : FileRegistry)

def registerPath (path : Path) (pushed : Except IoError Unit) : Except IoError Nat × FileRegistry :=
  match g.byPath path.components with
  | some id => (.ok id, g)
  | none =>
      let next := FileId.ofIndex g.paths.length
      if FileId.SPECIAL_FLOOR ≤ next then (.error exhausted, g)
      else
        match RegistryStore.append g.log path pushed with
        | .error e => (.error e, g)
        | .ok log => (.ok next, { g with
            log
            paths := g.paths ++ [path]
            byPath := Function.update g.byPath path.components (some next)
            live := g.live ++ [none] })

/-- The host attached under the slot `idx`. -/
def liveAt (idx : Nat) : Option Host := (g.live[idx]?).join

/-- The reverse map has the host under another id that is live. -/
def elsewhere (id : Nat) (host : Host) : Bool :=
  match g.byStack host.stack with
  | some prev => prev ≠ id ∧ ((FileId.tableIndex prev).bind g.liveAt).isSome
  | none => false

/-- The second half of `attach`, under its own lock: `host` becomes the live host of `id`. -/
def attachAt (id : Nat) (host : Host) : Except IoError Nat × FileRegistry :=
  match FileId.tableIndex id with
  | none => (.error noSlot, g)
  | some idx =>
      if g.elsewhere id host then (.error aliased, g)
      else
        let byStack := match g.liveAt idx with
          | some old => Function.update g.byStack old.stack none
          | none => g.byStack
        (.ok id, { g with
          live := g.live.set idx (some host)
          byStack := Function.update byStack host.stack (some id) })

def attach (path : Path) (host : Host) (pushed : Except IoError Unit) : Except IoError Nat × FileRegistry :=
  match g.registerPath path pushed with
  | (.error e, g') => (.error e, g')
  | (.ok id, g') => g'.attachAt id host

def detach (id : Nat) : FileRegistry :=
  match FileId.tableIndex id with
  | none => g
  | some idx =>
      match g.liveAt idx with
      | none => g
      | some host => { g with
          live := g.live.set idx none
          byStack := if g.byStack host.stack = some id then Function.update g.byStack host.stack none
            else g.byStack }

/-- The process ends, and the next one opens the log. -/
def reopen : FileRegistry := openLog g.log

def hostArc (id : Nat) : Option Host := (FileId.tableIndex id).bind g.liveAt

def pathOf (id : Nat) : Option Path := (FileId.tableIndex id).bind fun idx => g.paths[idx]?

def idOf (path : Path) : Option Nat := g.byPath path.components

def idOfHost (host : Host) : Option Nat := g.byStack host.stack

end FileRegistry

/-- An operation on a registry, with the outcome of the push it may make. -/
inductive RegistryOp
  | registerPath (path : Path) (pushed : Except IoError Unit)
  | attach (path : Path) (host : Host) (pushed : Except IoError Unit)
  | detach (id : Nat)
  | reopen

namespace FileRegistry

def step (g : FileRegistry) : RegistryOp → FileRegistry
  | .registerPath path pushed => (g.registerPath path pushed).2
  | .attach path host pushed => (g.attach path host pushed).2
  | .detach id => g.detach id
  | .reopen => g.reopen

/-- A sequence of operations. -/
def run (g : FileRegistry) (ops : List RegistryOp) : FileRegistry := ops.foldl step g

end FileRegistry

/-! ### `SELF` pointers -/

def WidePtr.isSelf (p : WidePtr) : Bool := p.file = FileId.SELF

/-- `registry::id_of_host`, on the registry of the process, if there is one. -/
def idOfHost (reg : Option FileRegistry) (host : Host) : Option Nat := reg.bind fun g => g.idOfHost host

/-- What a slot of `home` reads as. -/
def resolveSelfRepr (reg : Option FileRegistry) (repr : WidePtr) (home : Host) : Except IoError WidePtr :=
  if ¬ repr.isSelf ∨ repr.isNull then .ok repr
  else match idOfHost reg home with
    | some id => .ok ⟨id, repr.ty, repr.offset⟩
    | none => .ok repr

/-- What is stored for a pointer in a slot of `home`. -/
def homeRelativeRepr (reg : Option FileRegistry) (repr : WidePtr) (home : Host) : WidePtr :=
  if repr.isSelf then repr
  else match idOfHost reg home with
    | some id => if repr.file = id then ⟨FileId.SELF, repr.ty, repr.offset⟩ else repr
    | none => repr

end BStackRaii
