import BStackRaii.Logic.Threads
import BStackRaii.Model.Table
/-!
# Atomic updates of words

`atomic_update` of `stdlib/util.rs`, which the deque, the heap and the linked list share. One generator
reads words at offsets it is given, then words at offsets that depend on what it read, and then writes
what `plan` makes of both rounds.
-/

namespace BStackRaii

/-- A round of reads, one word each. -/
def words : List Nat → Gen (List Nat)
  | [] => pure []
  | off :: offs => do
      let buf ← Gen.get off 8
      let rest ← words offs
      pure (leNat buf :: rest)

def updateGen {α : Type} (reads1 : List Nat) (reads2 : List Nat → Except IoError (List Nat))
    (plan : List Nat → List Nat → Except IoError (Batch × α)) : Gen (Batch × α) := do
  let v1 ← words reads1
  let offs2 ← Gen.lift (reads2 v1)
  let v2 ← words offs2
  Gen.lift (plan v1 v2)

/-- `atomic_update`. What `plan` keeps in the cells of its caller is the result. -/
def atomicUpdate {α : Type} (a : Allocator) (reads1 : List Nat)
    (reads2 : List Nat → Except IoError (List Nat))
    (plan : List Nat → List Nat → Except IoError (Batch × α)) : Script IoError World α := do
  let r ← .atom (inplaceGen a.stack (updateGen reads1 reads2 plan))
  .lift r

section Eval

variable {f : File}

theorem eval_words {offs : List Nat} (h : ∀ off ∈ offs, off + 8 ≤ f.len) :
    (words offs).eval f = .ok (offs.map f.bytes.word) := by
  induction offs with
  | nil => rfl
  | cons off offs ih =>
      have hread : (Gen.get off 8).eval f = .ok (f.bytes.read off 8) :=
        Gen.eval_get (h off List.mem_cons_self)
      have hrest := ih fun x hx => h x (List.mem_cons_of_mem off hx)
      rw [words, Gen.eval_bind_ok hread, Gen.eval_bind_ok hrest]
      rfl

theorem eval_updateGen {α : Type} {reads1 : List Nat} (offs2 : List Nat) {reads2 : List Nat → Except IoError (List Nat)}
    {plan : List Nat → List Nat → Except IoError (Batch × α)} (h1 : ∀ off ∈ reads1, off + 8 ≤ f.len)
    (hround : reads2 (reads1.map f.bytes.word) = .ok offs2) (h2 : ∀ off ∈ offs2, off + 8 ≤ f.len) :
    (updateGen reads1 reads2 plan).eval f = plan (reads1.map f.bytes.word) (offs2.map f.bytes.word) := by
  have hreads : (Gen.lift (reads2 (reads1.map f.bytes.word))).eval f = .ok offs2 := hround
  rw [updateGen, Gen.eval_bind_ok (eval_words h1), Gen.eval_bind_ok hreads, Gen.eval_bind_ok (eval_words h2)]
  rfl

end Eval

end BStackRaii
