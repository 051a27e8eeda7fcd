import BStackRaii.Model.FileRegistry
import BStackRaii.Model.Teardown
/-!
# Handles on targets in other files

`types/compiled/foreign.rs`, over the drop cores of `io_core/foreign.rs`. `ForeignOwned`, `ForeignRc` and
`ForeignWeak` hold a wide pointer. Their `bstack_drop` finds the target's file by the registry, and `into_local`
turns them into the handle that a target in the file of an allocator has. The handles are dropped outside of any
teardown, so with no sink and at depth 0.
-/

namespace BStackRaii

/-- The registry of a process, and the allocator that each host is. -/
structure Process where
  registry : Option FileRegistry
  allocator : Host → Allocator
  stack_eq : ∀ host, (allocator host).stack = host.stack
  own : ∀ host, (allocator host).walFileId = FileId.SELF

/-- `FileId::from_u64` -/
def FileId.fromU64 (v : Nat) : Option Nat := if v < 2 ^ 32 then some v else none

namespace Process

variable (P : Process)

/-- `registry::host_arc`, on the registry of the process, if there is one. -/
def hostArc (id : Nat) : Option Host := P.registry.bind fun g => g.hostArc id

/-- `ForeignHostAllocator::new` -/
def foreignHostAllocator (host : Host) (id : Nat) : Allocator :=
  { P.allocator host with atomicBulk := false, walFileId := id }

/-- The allocator of a file, or an adapter of it. -/
inductive IsAllocator : Allocator → Prop
  | file (host : Host) : IsAllocator (P.allocator host)
  | adapter (host : Host) (id : Nat) : IsAllocator (P.foreignHostAllocator host id)

def notTheFile : IoError :=
  ⟨.invalidInput, "Foreign::into_local: the pointer's home file is not the given target allocator's file"⟩

/-- An allocator declares its id, or the registry knows the one of its file. -/
def ensureTargetFile (repr : WidePtr) (target : Allocator) : Except IoError Unit :=
  if repr.isSelf then .ok ()
  else
    let targetId := if target.walFileId = FileId.SELF then idOfHost P.registry ⟨target.stack⟩
      else some target.walFileId
    if targetId ≠ some repr.file then .error notTheFile else .ok ()

/-- `foreign_dispatch_drop!` -/
def foreignDispatchDrop (repr : WidePtr) (home : Allocator) (drop : Allocator → Nat → Io Unit) : Io Unit :=
  if repr.offset = 0 then pure ()
  else if repr.isSelf then drop home repr.offset
  else match FileId.fromU64 repr.file with
    | some id =>
        match P.hostArc id with
        | some host => drop (P.foreignHostAllocator host id) repr.offset
        | none => pure ()
    | none => pure ()

end Process

/-- `ForeignOwned`, `ForeignRc` and `ForeignWeak`. A weak pointer has the offset of the control block. -/
inductive ForeignHandle (τ : Type)
  | owned (t : τ) (ptr : WidePtr)
  | rc (t : τ) (ptr : WidePtr)
  | weak (ptr : WidePtr)
deriving DecidableEq, Repr

/-- `BStackOwned`, `BStackRc` and `BStackWeak`. -/
inductive LocalHandle (τ : Type)
  | owned (t : τ) (off : Nat)
  | rc (t : τ) (off : Nat) (ctrl : Option Nat)
  | weak (ctrl : Nat)
deriving DecidableEq, Repr

def ForeignHandle.ptr {τ : Type} : ForeignHandle τ → WidePtr
  | owned _ ptr => ptr
  | rc _ ptr => ptr
  | weak ptr => ptr

section Drops

variable {τ : Type} [DecidableEq τ] (types : τ → BlockType τ)

/-- A drop core, outside of any teardown. -/
def release (core : Teardown Unit) : Io Unit := do
  let _ ← core none
  pure ()

variable (fuel : Nat)

def foreignDropOwned (t : τ) (a : Allocator) (off : Nat) : Io Unit :=
  release (Teardown.dropOwned types a (Teardown.dropToken types a fuel) 0 t off)

def foreignDropStrong (t : τ) (a : Allocator) (off : Nat) : Io Unit :=
  release (Teardown.dropStrongRef types a (Teardown.dropToken types a fuel) 0 t off)

def foreignDropWeak (a : Allocator) (ctrl : Nat) : Io Unit := release (Teardown.releaseWeak a ctrl)

/-- `bstack_drop` of a handle. -/
def ForeignHandle.bstackDrop (P : Process) (home : Allocator) : ForeignHandle τ → Io Unit
  | owned t ptr => P.foreignDispatchDrop ptr home (foreignDropOwned types fuel t)
  | rc t ptr => P.foreignDispatchDrop ptr home (foreignDropStrong types fuel t)
  | weak ptr => P.foreignDispatchDrop ptr home foreignDropWeak

/-- The drop of a handle. `AutoDrop` swallows the error that this may return for a counted one. -/
def LocalHandle.drop (a : Allocator) : LocalHandle τ → Io Unit
  | owned t off => Teardown.bstackDrop types a fuel t off
  | rc t off none => release (Teardown.dropStrong types a (Teardown.dropToken types a fuel) 0 t off)
  | rc t off (some ctrl) =>
      release (Teardown.strongReleaseCtrl types a (Teardown.dropToken types a fuel) 0 t off ctrl)
  | weak ctrl => release (Teardown.releaseWeak a ctrl)

/-- `strong_parts`: the control block of the block at `off`, if its type has one. -/
def strongParts (a : Allocator) (t : τ) (off : Nat) : Io (Option Nat) :=
  match (types t).mode with
  | .rcWeak => do
      let ctrl ← Teardown.resolveCtrl a off
      pure (some ctrl)
  | _ => pure none

/-- `into_local` of a handle. An error hands the handle back. -/
def ForeignHandle.intoLocal (P : Process) (target : Allocator) (h : ForeignHandle τ) :
    Io (Except (IoError × ForeignHandle τ) (LocalHandle τ)) :=
  match P.ensureTargetFile h.ptr target with
  | .error e => pure (.error (e, h))
  | .ok () =>
      match h with
      | owned t ptr => pure (.ok (.owned t ptr.offset))
      | rc t ptr => do
          match ← Prog.attempt (strongParts types target t ptr.offset) with
          | .ok ctrl => pure (.ok (.rc t ptr.offset ctrl))
          | .error e => pure (.error (e, h))
      | weak ptr => pure (.ok (.weak ptr.offset))

end Drops

end BStackRaii
