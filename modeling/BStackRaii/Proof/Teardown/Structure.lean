import BStackRaii.Logic.Ledger
import BStackRaii.Model.Teardown
/-!
# Structures of owned and shared blocks

What a teardown finds on disk, read off one file before it starts. A `Place` is what a token leads to: a
block, a child embedded in one, a control block, or a bare range. Its tokens are those its walk drops on that
file, and its references are their targets, with the phantom weak reference of an `(rc, weak)` block.
-/

namespace BStackRaii

/-- What a token leads to. -/
inductive Place (τ : Type)
  | block (t : τ) (off : Nat)
  | inline (t : τ) (off : Nat)
  | ctrl (off : Nat)
  | data (range : Range)
deriving DecidableEq, Repr

namespace Token

variable {τ : Type}

def target : Token τ → Place τ
  | owned t off => .block t off
  | element t off => .block t off
  | strong t off => .block t off
  | weak ctrl => .ctrl ctrl
  | embed t off => .inline t off
  | data range => .data range

/-- The levels of depth a token's drop takes. -/
def hops : Token τ → Nat
  | owned _ _ => 1
  | strong _ _ => 1
  | _ => 0

end Token

/-- The tokens a walk drops on `f`. -/
def Walk.tokens {τ : Type} (f : File) : Walk τ → Except IoError (List (Token τ))
  | .done (.ok _) => .ok []
  | .done (.error e) => .error e
  | .read off n rest =>
      if off + n ≤ f.len then (rest (f.bytes.read off n)).tokens f else .error outOfBounds
  | .drop token rest => (rest.tokens f).map (token :: ·)

/-! ### Layouts -/

/-- Where the fields of the user start: behind the header, and the word the macros inject. -/
def Mode.userStart : Mode → Nat
  | .plain => HEADER_SIZE
  | _ => HEADER_SIZE + 8

section Layout

variable {τ : Type} (types : τ → BlockType τ) (T : BlockType τ)

/-- A field of `width` bytes lies in the user's part of the block. -/
def FieldSlot (field width : Nat) : Prop := T.mode.userStart ≤ field ∧ field + width ≤ T.size

/-- What the annotations require: an owned or embedded child is plain, a strong one is not. -/
def DropStmt.Fits : DropStmt τ → Prop
  | owned field t => FieldSlot T field 8 ∧ (types t).mode = .plain
  | strong field t => FieldSlot T field 8 ∧ (types t).mode ≠ .plain
  | weak field => FieldSlot T field 8
  | embed field t => FieldSlot T field (types t).size ∧ (types t).mode = .plain
  | vec field _ => FieldSlot T field 16

def DropArm.Fits (payload : Nat) : DropArm τ → Prop
  | owned t => FieldSlot T payload 8 ∧ (types t).mode = .plain
  | strong t => FieldSlot T payload 8 ∧ (types t).mode ≠ .plain
  | weak => FieldSlot T payload 8
  | embed t => FieldSlot T payload (types t).size ∧ (types t).mode = .plain
  | nothing => True

def Body.Fits : Body τ → Prop
  | struct stmts => ∀ s ∈ stmts, s.Fits types T
  | enum disc width payload arms => FieldSlot T disc width ∧ ∀ arm ∈ arms, arm.2.Fits types T payload
  | list value => T.mode = .plain ∧ BStackLinkedList.LIST_SIZE ≤ T.size ∧ (types value).mode = .plain

/-- The layouts the macros generate. -/
structure Laid : Prop where
  size : ∀ t, (types t).mode.userStart ≤ (types t).size
  fits : ∀ t, (types t).body.Fits types (types t)

end Layout

/-! ### Places -/

namespace Place

variable {τ : Type} [DecidableEq τ] (types : τ → BlockType τ) (f : File)

def range : Place τ → Option Range
  | block t off => some ⟨off, (types t).size⟩
  | inline _ _ => none
  | ctrl off => some ⟨off, CONTROL_SIZE⟩
  | data r => some r

def tokens : Place τ → Except IoError (List (Token τ))
  | block t off => ((types t).dropChildren off).tokens f
  | inline t off => ((types t).dropChildren off).tokens f
  | ctrl _ => .ok []
  | data _ => .ok []

def ctrlOf (off : Nat) : Nat := f.bytes.word (off + CTRL_BACKPTR_OFFSET)

/-- The weak reference that the strong owners of a block hold together. -/
def phantom : Place τ → List (Place τ)
  | block t off => if (types t).mode = .rcWeak then [ctrl (ctrlOf f off)] else []
  | _ => []

/-- Where the references to a place are counted. A place without a counter has one owner. -/
def counter : Place τ → Option Nat
  | block t off =>
      match (types t).mode with
      | .plain => none
      | .rc => some (off + RC_REFCOUNT_OFFSET)
      | .rcWeak => some (ctrlOf f off + CTRL_STRONG_OFFSET)
  | inline _ _ => none
  | ctrl off => some (off + CTRL_WEAK_OFFSET)
  | data _ => none

def children (p : Place τ) : List (Place τ) :=
  match p.tokens types f with
  | .ok tokens => tokens.map Token.target
  | .error _ => []

/-- The references of every place, and the number on record. -/
def holdings : Holdings (Place τ) where
  holds p := p.children types f ++ p.phantom types f
  count p := (p.counter types f).elim 1 f.bytes.word

end Place

section Structure

variable {τ : Type} [DecidableEq τ] (types : τ → BlockType τ) (f : File) (root : Place τ)

inductive Reach : Place τ → Prop
  | root : Reach root
  | step {p q : Place τ} (hp : Reach p) (hq : q ∈ (Place.holdings types f).holds p) : Reach q

/-- A finite acyclic structure: everything that hangs off `root` is in `N`, and leads to nothing of its own
or a higher rank. Every place is readable, has its own allocation, and has its references on record. -/
structure Structure (N : Finset (Place τ)) : Prop where
  reach : ∀ p, p ∈ N ↔ Reach types f root p
  acyclic : ∃ rank : Place τ → Nat, ∀ p ∈ N, ∀ q ∈ (Place.holdings types f).holds p, rank q < rank p
  readable : ∀ p ∈ N, ∃ tokens, p.tokens types f = .ok tokens
  allocated : ∀ p ∈ N, ∀ r, p.range types = some r → r ∈ f.live
  distinct : ∀ p ∈ N, ∀ q ∈ N, ∀ r, p.range types = some r → q.range types = some r → p = q
  backed : ∀ p ∈ N, p ≠ root → (Place.holdings types f).inbound N p ≤ (Place.holdings types f).count p
  paired : ∀ t off, .block t off ∈ N → (types t).mode = .rcWeak →
    f.bytes.word (Place.ctrlOf f off + CTRL_DATA_OFFSET) = off

/-- Some place has elements, each of which is torn down in a batch of its own. -/
def Batched (N : Finset (Place τ)) : Prop :=
  ∃ p ∈ N, ∃ tokens t off, p.tokens types f = .ok tokens ∧ .element t off ∈ tokens

/-- The place can be reached through solely owned ones with `d` owned or strong hops. -/
inductive Hops (N : Finset (Place τ)) : Nat → Place τ → Prop
  | root : Hops N 0 root
  | step {d : Nat} {p : Place τ} {tokens : List (Token τ)} {tok : Token τ} (hp : Hops N d p)
      (hsole : (Place.holdings types f).Sole root N p) (htokens : p.tokens types f = .ok tokens)
      (htok : tok ∈ tokens) : Hops N (d + tok.hops) tok.target

end Structure

end BStackRaii
