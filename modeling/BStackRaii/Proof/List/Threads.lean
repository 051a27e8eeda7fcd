import BStackRaii.Proof.Interleaving
import BStackRaii.Proof.LinkedList
import Mathlib.Algebra.Order.PUnit
/-!
# The linked list among threads

Any number of pushes and pops of one list are in flight. A push takes effect with the batch that links its node in,
and a pop with the batch that takes one out. A push owns its node before that, and a pop after it, until it has
freed the shell.
-/

namespace BStackRaii

namespace BStackLinkedList

open Linearize

/-! ### The reference -/

/-- The list as a sequential object. A push that finds no space changes nothing. -/
def object : Object (List UInt64) ListOp (Except IoError (Option UInt64)) where
  allows ref op out := out = .ok (op.apply ref).1 ∨ op.IsPush ∧ out = .error outOfSpace
  next ref op out := if out.isOk then (op.apply ref).2 else ref

inductive Pushes : ListOp → Side → UInt64 → Prop
  | back (v : UInt64) : Pushes (.pushBack v) .back v
  | front (v : UInt64) : Pushes (.pushFront v) .front v

inductive Pops : ListOp → Side → Prop
  | back : Pops .popBack .back
  | front : Pops .popFront .front

section Ends

variable {op : ListOp} {s : Side} {v : UInt64}

theorem Pushes.isPush (h : Pushes op s v) : op.IsPush := by
  cases h with
  | back v => exact trivial
  | front v => exact trivial

/-- A push puts its value in front, as the list reads from its end. -/
theorem Pushes.apply (h : Pushes op s v) (ref : List UInt64) : op.apply ref = (none, s.view (v :: s.view ref)) := by
  cases h with
  | back v =>
      show (none, ref ++ [v]) = (none, (v :: ref.reverse).reverse)
      rw [List.reverse_cons, List.reverse_reverse]
  | front v => rfl

theorem Pops.apply (h : Pops op s) (ref : List UInt64) :
    op.apply ref = ((s.view ref).head?, s.view (s.view ref).tail) := by
  cases h with
  | back =>
      show (ref.getLast?, ref.dropLast) = (ref.reverse.head?, ref.reverse.tail.reverse)
      rw [List.head?_reverse, List.tail_reverse, List.reverse_reverse]
  | front => rfl

theorem Side.map_view {α β : Type} (f : α → β) (xs : List α) (s : Side) : (s.view xs).map f = s.view (xs.map f) := by
  cases s with
  | front => rfl
  | back => exact List.map_reverse

theorem Side.coe_view {α : Type} (xs : List α) (s : Side) : (↑(s.view xs) : Multiset α) = ↑xs := by
  cases s with
  | front => rfl
  | back => exact Multiset.coe_reverse xs

theorem ListAt.view {f : File} {list : Nat} {ns : List Node} (h : ListAt f list .front ns) (s : Side) :
    ListAt f list s (s.view ns) := by
  cases s with
  | front => exact h
  | back => exact h.flip

theorem ListAt.unview {f : File} {list : Nat} {ns : List Node} (h : ListAt f list s ns) :
    ListAt f list .front (s.view ns) := by
  cases s with
  | front => exact h
  | back => exact h.flip

end Ends

/-! ### Where a call stands -/

section Discipline

variable (a : Allocator) (list : Nat) (tag : UInt64)

/-- What a call may have left to do before it takes effect, and the block it owns then. -/
inductive Rest : ListOp → Script IoError World (Option UInt64) → Multiset Range → Prop
  | start {op : ListOp} : Rest op (op.code a list tag) 0
  | linking {op : ListOp} {s : Side} {v : UInt64} (hop : Pushes op s v) {node : Range} (hlen : node.len = NODE_SIZE)
      {next : Except IoError Range → Script IoError World (Option UInt64)}
      (hcode : op.code a list tag = .step (alloc a NODE_SIZE) next) : Rest op (next (.ok node)) {node}
  | failed {op : ListOp} (hop : op.IsPush) : Rest op (.done (.error outOfSpace)) 0

/-- What a pop has left to do once its node is taken out. -/
inductive Tail : ListOp → Script IoError World (Option UInt64) → Multiset Range → Except IoError (Option UInt64) → Prop
  | freeing {op : ListOp} (n : Node) : Tail op (.atom (deallocRange a n.block) >>= fun _ => pure (some n.value))
      {n.block} (.ok (some n.value))
  | freed {op : ListOp} (v : UInt64) : Tail op (.done (.ok (some v))) 0 (.ok (some v))

def blocksOf (ns : List Node) : Multiset Range := ↑(ns.map Node.block)

def discipline : Discipline (List UInt64) ListOp (Option UInt64) (List Node) Unit where
  Holds ns _ f := ListAt f list .front ns
  value ns := ns.map Node.value
  blocks := blocksOf
  Drift _ _ := True
  Rest _ op c held _ φ := Rest a list tag op c held ∧ φ = fun _ => True
  Astray _ _ := False
  Tail _ op c held _ out := Tail a op c held out

def noRoot : Root ListOp := ⟨fun _ => 0, fun _ => False⟩

end Discipline

section Steps

variable {a : Allocator} {list : Nat} {tag : UInt64} {w : World} {ns : List Node} {op : ListOp} {s : Side} {v : UInt64}
  {held : Multiset Range} {r : Range}

/-- What the step lemmas say of a call of `op` that makes the step `c`. -/
def Steps {β : Type} (a : Allocator) (list : Nat) (tag : UInt64) (w : World) (ns : List Node) (op : ListOp)
    (held : Multiset Range) (c : Io β) (next : Except IoError β → Script IoError World (Option UInt64)) : Prop :=
  ∃ ns' held', (discipline a list tag).After a.stack () w (c w).final ns ns' held held' () ∧
    (discipline a list tag).Outcome object ns ns' op (next (c w).out) held' () fun _ => True

theorem blocksOf_view (ns : List Node) (s : Side) : blocksOf (s.view ns) = blocksOf ns := by
  rw [blocksOf, Side.map_view, Side.coe_view, blocksOf]

theorem blocksOf_cons (n : Node) (ns : List Node) : blocksOf (n :: ns) = blocksOf ns + {n.block} := by
  rw [add_comm, Multiset.singleton_add]
  rfl

/-- A block that a call owns is none of the list's. -/
theorem own_apart (hown : {⟨list, LIST_SIZE⟩} + (blocksOf ns + {r}) ≤ (↑(w.files a.stack).live : Multiset Range)) :
    r ∈ (w.files a.stack).live ∧ r ≠ ⟨list, LIST_SIZE⟩ ∧ r ∉ ns.map Node.block := by
  have hnodup := Multiset.nodup_of_le hown (nodup_live a.stack w)
  rw [add_comm (blocksOf ns), ← add_assoc, add_comm {_}, add_assoc, Multiset.singleton_add, Multiset.nodup_cons,
    Multiset.singleton_add, Multiset.mem_cons, not_or] at hnodup
  exact ⟨Multiset.mem_coe.mp (Multiset.mem_of_le hown (by simp)), hnodup.1.1, hnodup.1.2⟩

theorem alloc_steps (hop : Pushes op s v) (hq : w.Quiet) (hx : ListAt (w.files a.stack) list .front ns)
    {next : Except IoError Range → Script IoError World (Option UInt64)}
    (hcode : op.code a list tag = .step (alloc a NODE_SIZE) next) :
    Steps a list tag w ns op 0 (alloc a NODE_SIZE) next := by
  obtain ⟨w', hrun, hfiles, hquiet⟩ | ⟨r, hr, hlen, hrun⟩ := alloc_step a NODE_SIZE hq
  · have hfail : next (.error outOfSpace) = .done (.error outOfSpace) := by
      cases hop with
      | back v =>
          cases hcode
          rfl
      | front v =>
          cases hcode
          rfl
    refine ⟨ns, 0, ?_, ?_⟩
    · rw [hrun]
      exact .idle hquiet (congrFun hfiles a.stack) hx trivial rfl
    · rw [hrun, hfail]
      exact .further _ rfl ⟨.failed hop.isPush, rfl⟩ (.inl rfl)
  · refine ⟨ns, {r}, ?_, ?_⟩
    · have hblocks : blocksOf ns + {r} = blocksOf ns + 0 + {r} := by rw [add_zero]
      rw [hrun]
      exact .grant hq hr (hx.allocAt hr) trivial hblocks
    · rw [hrun]
      exact .further _ rfl ⟨.linking hop hlen hcode, rfl⟩ (.inl rfl)

theorem link_steps (hop : Pushes op s v) (hq : w.Quiet) (hx : ListAt (w.files a.stack) list .front ns)
    (hlen : r.len = NODE_SIZE)
    (hown : {⟨list, LIST_SIZE⟩} + (blocksOf ns + {r}) ≤ (↑(w.files a.stack).live : Multiset Range))
    {next : Except IoError (Except IoError Unit) → Script IoError World (Option UInt64)}
    (hnext : next (.ok (.ok ())) = .done (.ok none)) : Steps a list tag w ns op {r}
      (inplaceGen a.stack (updateGen [list + s.endOff, list + LEN_OFF] (fun _ => .ok []) fun v1 _ => do
        let ws ← linkWrites list tag s r.start v.toNat (v1.getD 0 0) (v1.getD 1 0)
        pure (ws, ()))) next := by
  obtain ⟨hlive, hne, hfresh⟩ := own_apart hown
  obtain ⟨start, len⟩ := r
  change len = NODE_SIZE at hlen
  subst hlen
  have horphan : Orphan list s (s.view ns)
    ((w.files a.stack).live.erase ⟨start, NODE_SIZE⟩) start (w.files a.stack) := by
    refine ⟨hx.view s, ?_, fun heq => hne (congrArg (fun x => (⟨x, NODE_SIZE⟩ : Range)) heq), fun hmem => hfresh ?_⟩
    · rw [← Multiset.coe_erase, Multiset.cons_erase (Multiset.mem_coe.mpr hlive)]
    · rw [Side.map_view, ← Multiset.mem_coe, Side.coe_view, Multiset.mem_coe] at hmem
      obtain ⟨n, hn, rfl⟩ := List.mem_map.mp hmem
      exact List.mem_map_of_mem hn
  obtain ⟨ws, u, heval, hin, hlinked, -⟩ := horphan.update tag v
  have hrun := inplaceGen_run hq heval hin
  refine ⟨s.view (⟨start, v⟩ :: s.view ns), 0, ?_, ?_⟩
  · have hblocks : blocksOf (s.view (⟨start, v⟩ :: s.view ns)) + 0 = blocksOf ns + {⟨start, NODE_SIZE⟩} := by
      rw [blocksOf_view, blocksOf_cons, blocksOf_view, add_zero]
      rfl
    rw [hrun]
    exact .commit hq hlinked.unview trivial hblocks
  · have happly := hop.apply (ns.map Node.value)
    rw [hrun]
    refine .effect (.ok none) hnext rfl (.inl ?_) ?_
    · show _ = Except.ok (op.apply (ns.map Node.value)).1
      rw [happly]
    · show (op.apply (ns.map Node.value)).2 = (s.view (⟨start, v⟩ :: s.view ns)).map Node.value
      rw [happly, Side.map_view, List.map_cons, Side.map_view]

/-- The generator of a pop. -/
def popGen (list : Nat) (s : Side) : Gen (Batch × Option (Nat × Nat)) :=
  updateGen [list + s.endOff, list + LEN_OFF]
    (fun v1 =>
      if v1.getD 0 0 = 0 then .ok []
      else do
        let link ← checkedOff (v1.getD 0 0) s.inward
        let value ← checkedOff (v1.getD 0 0) NVAL_OFF
        pure [link, value])
    fun v1 v2 =>
      if v1.getD 0 0 = 0 then .ok ([], none)
      else do
        let ws ← unlinkWrites list s (v2.getD 0 0) (v1.getD 1 0)
        pure (ws, some (v1.getD 0 0, v2.getD 1 0))

theorem popGen_nil {f : File} (h : ListAt f list s []) : (popGen list s).eval f = .ok ([], none) := by
  have hblock := block_inside h.block
  have hends := s.ends
  have hoff : LEN_OFF = 32 := rfl
  have hfirst : f.bytes.word (list + s.endOff) = 0 := h.first
  rw [popGen, eval_updateGen [] _ _ fun _ hx => absurd hx List.not_mem_nil]
  · simp only [List.map_cons, List.getD_cons_zero, hfirst, if_true]
  · intro off hoff'
    simp only [List.mem_cons, List.not_mem_nil, or_false] at hoff'
    omega
  · simp only [List.map_cons, List.getD_cons_zero, hfirst, if_true]

theorem unlink_steps (hop : Pops op s) (hq : w.Quiet) (hx : ListAt (w.files a.stack) list .front ns)
    {next : Except IoError (Except IoError (Option (Nat × Nat))) → Script IoError World (Option UInt64)}
    (hcode : op.code a list tag = .step (inplaceGen a.stack (popGen list s)) next) :
    Steps a list tag w ns op 0 (inplaceGen a.stack (popGen list s)) next := by
  have happly := hop.apply (ns.map Node.value)
  have hback : s.view (s.view ns) = ns := s.view_view ns
  have hview := hx.view s
  rw [← Side.map_view] at happly
  cases hnodes : s.view ns with
  | nil =>
      rw [hnodes] at hview happly hback
      have hrun := inplaceGen_run hq (popGen_nil hview) fun x hx => absurd hx List.not_mem_nil
      have hdone : next (.ok (.ok none)) = .done (.ok none) := by
        cases hop with
        | back =>
            cases hcode
            rfl
        | front =>
            cases hcode
            rfl
      refine ⟨ns, 0, ?_, ?_⟩
      · rw [hrun]
        exact .commit hq hx trivial rfl
      · rw [hrun]
        refine .effect (.ok none) hdone rfl (.inl ?_) ?_
        · show _ = Except.ok (op.apply (ns.map Node.value)).1
          rw [happly]
          rfl
        · show (op.apply (ns.map Node.value)).2 = ns.map Node.value
          rw [happly, ← hback, Side.map_view]
          rfl
  | cons n rest =>
      rw [hnodes] at hview happly hback
      obtain ⟨ws, taken, heval, hin, rfl, hchain, -⟩ := Holds.take ⟨hview, rfl⟩
      have hrun : inplaceGen a.stack (popGen list s) w = _ := inplaceGen_run hq heval hin
      have hnext : next (.ok (.ok (some (n.off, n.value.toNat)))) =
          .atom (deallocRange a n.block) >>= fun _ => pure (some (UInt64.ofNat n.value.toNat)) := by
        cases hop with
        | back =>
            cases hcode
            rfl
        | front =>
            cases hcode
            rfl
      rw [UInt64.ofNat_toNat] at hnext
      refine ⟨s.view rest, {n.block}, ?_, ?_⟩
      · have hblocks : blocksOf (s.view rest) + {n.block} = blocksOf ns + 0 := by
          rw [← hback, blocksOf_view, blocksOf_view, blocksOf_cons, add_zero]
        rw [hrun]
        exact .commit hq hchain.unview trivial hblocks
      · rw [hrun]
        refine .early (.ok (some n.value)) ?_ (.inl ?_) ?_
        · show Tail a op (next (.ok (.ok (some (n.off, n.value.toNat))))) {n.block} (.ok (some n.value))
          rw [hnext]
          exact .freeing n
        · show _ = Except.ok (op.apply (ns.map Node.value)).1
          rw [happly]
          rfl
        · show (op.apply (ns.map Node.value)).2 = (s.view rest).map Node.value
          rw [happly, Side.map_view]
          rfl

theorem free_steps (tag : UInt64) {n : Node} (hq : w.Quiet) (hx : ListAt (w.files a.stack) list .front ns)
    (hown : {⟨list, LIST_SIZE⟩} + (blocksOf ns + {n.block}) ≤ (↑(w.files a.stack).live : Multiset Range)) :
    deallocRange a n.block w = ⟨.ok (), w.release a.stack n.block, [w]⟩ ∧
      (discipline a list tag).After a.stack () w (w.release a.stack n.block) ns ns {n.block} 0 () := by
  obtain ⟨hlive, hne, hfresh⟩ := own_apart hown
  have hblocks : blocksOf ns + 0 + {n.block} = blocksOf ns + {n.block} := by rw [add_zero]
  exact ⟨deallocRange_run hq hlive, .release hq hlive (hx.free hne hfresh) trivial hblocks⟩

end Steps

/-! ### The discipline -/

theorem Rest.finish {a : Allocator} {list : Nat} {tag : UInt64} {op : ListOp} {out : Except IoError (Option UInt64)}
    {held : Multiset Range} (h : Rest a list tag op (.done out) held) :
    held = 0 ∧ ∀ ref, object.allows ref op out ∧ object.next ref op out = ref := by
  generalize hcode : Script.done out = code at h
  cases h with
  | start => cases op <;> cases hcode
  | linking hop hlen hstart =>
      cases hop with
      | back v =>
          cases hstart
          cases hcode
      | front v =>
          cases hstart
          cases hcode
  | failed hop =>
      cases hcode
      exact ⟨rfl, fun ref => ⟨.inr ⟨hop, rfl⟩, rfl⟩⟩

theorem sound (a : Allocator) (list : Nat) (tag : UInt64) : (discipline a list tag).Sound a.stack {⟨list, LIST_SIZE⟩}
    (fun _ => ListOp.code a list tag) object noRoot where
  waste h := h
  frame := by
    intro ns g f f' hx hkeep
    refine ListAt.frame hx fun r hr => ?_
    rcases hr with rfl | hr
    · exact hkeep _ (Multiset.mem_add.mpr (.inl (Multiset.mem_singleton_self _))) hx.block
    · obtain ⟨n, hn, rfl⟩ := List.mem_map.mp hr
      exact hkeep _ (Multiset.mem_add.mpr (.inr hr)) (hx.nodes n hn)
  start ns attempts op := ⟨_, ⟨.start, rfl⟩, trivial⟩
  drift _ _ _ h := .inl ⟨_, h, .inl rfl⟩
  step := by
    intro β w ns g tokens op held φ c next hq hx hown ⟨hrest, hφ⟩
    have hstep : Steps a list tag w ns op held c next := by
      generalize hcode : Script.step c next = code at hrest
      cases hrest with
      | start =>
          cases op with
          | pushBack v =>
              cases hcode
              exact alloc_steps (.back v) hq hx rfl
          | pushFront v =>
              cases hcode
              exact alloc_steps (.front v) hq hx rfl
          | popBack =>
              cases hcode
              exact unlink_steps .back hq hx rfl
          | popFront =>
              cases hcode
              exact unlink_steps .front hq hx rfl
      | linking hop hlen hstart =>
          cases hop with
          | back v =>
              cases hstart
              cases hcode
              exact link_steps (.back _) hq hx hlen hown rfl
          | front v =>
              cases hstart
              cases hcode
              exact link_steps (.front _) hq hx hlen hown rfl
      | failed hop => cases hcode
    obtain ⟨ns', held', hafter, hout⟩ := hstep
    exact ⟨ns', held', (), hafter, hφ ▸ hout⟩
  finish h := ⟨h.1.finish.1, fun ref _ => h.1.finish.2 ref⟩
  wander _ h := h.elim
  tailDrift _ _ _ h := h
  tailStep := by
    intro β w ns g tokens op held out c next hq hx hown htail
    generalize hcode : Script.step c next = code at htail
    cases htail with
    | freeing n =>
        cases hcode
        obtain ⟨hrun, hafter⟩ := free_steps tag hq hx hown
        rw [hrun]
        exact ⟨ns, 0, (), hafter, rfl, .freed n.value⟩
    | freed v => cases hcode
  tailEnd := by
    intro ns op out out' held tokens htail
    generalize hcode : Script.done out' = code at htail
    cases htail with
    | freeing n => cases hcode
    | freed v =>
        cases hcode
        exact ⟨rfl, rfl⟩

/-! ### Values -/

def ListOp.puts : ListOp → Except IoError (Option UInt64) → Multiset UInt64
  | pushBack v, .ok _ => {v}
  | pushFront v, .ok _ => {v}
  | _, _ => 0

def ListOp.takes : ListOp → Except IoError (Option UInt64) → Multiset UInt64
  | popBack, .ok (some v) => {v}
  | popFront, .ok (some v) => {v}
  | _, _ => 0

def putIn (l : List (Effect ListOp (Except IoError (Option UInt64)))) : Multiset UInt64 :=
  (l.map fun e => e.op.puts e.res).sum

def takenOut (l : List (Effect ListOp (Except IoError (Option UInt64)))) : Multiset UInt64 :=
  (l.map fun e => e.op.takes e.res).sum

section Values

variable {op : ListOp} {s : Side} {v : UInt64}

theorem Pushes.conserves (h : Pushes op s v) (ref : List UInt64) :
    op.puts (.ok (op.apply ref).1) + ↑ref = op.takes (.ok (op.apply ref).1) + ↑(op.apply ref).2 := by
  have hputs : ∀ o, op.puts (.ok o) = {v} := by
    intro o
    cases h with
    | back v => rfl
    | front v => rfl
  have htakes : ∀ o, op.takes (.ok o) = 0 := by
    intro o
    cases h with
    | back v => rfl
    | front v => rfl
  rw [hputs, htakes, h.apply, zero_add, Side.coe_view, ← Multiset.cons_coe, Side.coe_view, Multiset.singleton_add]

theorem Pops.conserves (h : Pops op s) (ref : List UInt64) :
    op.puts (.ok (op.apply ref).1) + ↑ref = op.takes (.ok (op.apply ref).1) + ↑(op.apply ref).2 := by
  have hputs : ∀ o, op.puts (.ok o) = 0 := by
    intro o
    cases h with
    | back => rfl
    | front => rfl
  have hnone : op.takes (.ok none) = 0 := by
    cases h with
    | back => rfl
    | front => rfl
  have hsome : ∀ v, op.takes (.ok (some v)) = {v} := by
    intro v
    cases h with
    | back => rfl
    | front => rfl
  rw [hputs, zero_add, h.apply, Side.coe_view, ← Side.coe_view ref s]
  cases s.view ref with
  | nil =>
      show (0 : Multiset UInt64) = op.takes (.ok none) + 0
      rw [hnone, add_zero]
  | cons v vs =>
      show (↑(v :: vs) : Multiset UInt64) = op.takes (.ok (some v)) + ↑vs
      rw [hsome, Multiset.singleton_add, Multiset.cons_coe]

theorem puts_takes {ref : List UInt64} {out : Except IoError (Option UInt64)} (h : object.allows ref op out) :
    op.puts out + ↑ref = op.takes out + ↑(object.next ref op out) := by
  rcases h with rfl | ⟨hop, rfl⟩
  · cases op with
    | pushBack v => exact (Pushes.back v).conserves ref
    | pushFront v => exact (Pushes.front v).conserves ref
    | popBack => exact Pops.back.conserves ref
    | popFront => exact Pops.front.conserves ref
  · cases op with
    | pushBack v => rfl
    | pushFront v => rfl
    | popBack => exact hop.elim
    | popFront => exact hop.elim

end Values

/-! ### Runs -/

/-- Nobody has called the list of the nodes `ns` yet. Its nodes are the blocks that count as granted. -/
structure Starts (a : Allocator) (list : Nat) (ns : List Node) (s : Shared ListOp (Option UInt64)) : Prop where
  fresh : s.Fresh
  chain : ListAt (s.world.files a.stack) list .front ns
  granted : s.granted = blocksOf ns

/-- The states that the calls of the list and other code reach. -/
def Reaches (a : Allocator) (list : Nat) (tag : UInt64) :
    Shared ListOp (Option UInt64) → Shared ListOp (Option UInt64) → Prop :=
  Relation.ReflTransGen (Shared.Step a.stack {⟨list, LIST_SIZE⟩} fun _ => ListOp.code a list tag)

/-- What a run from the list of the nodes `ns₀` on has come to: the nodes are `ns`, the calls in flight own the
blocks `held`, and the calls that took effect did so in the order `l`. -/
structure Threaded (a : Allocator) (list : Nat) (ns₀ : List Node) (s : Shared ListOp (Option UInt64)) (ns : List Node)
    (held : Multiset Range) (l : List (Effect ListOp (Except IoError (Option UInt64)))) : Prop where
  chain : ListAt (s.world.files a.stack) list .front ns
  order : Linearizes object (ns₀.map Node.value) Set.univ s.events l
  items : after object (ns₀.map Node.value) l = ns.map Node.value
  forward : walk (s.world.files a.stack).bytes list .front = ns.map Node.value
  backward : walk (s.world.files a.stack).bytes list .back = (ns.map Node.value).reverse
  values : putIn l + ↑(ns₀.map Node.value) = takenOut l + ↑(ns.map Node.value)
  blocks : s.granted = blocksOf ns + held + s.freed
  live : {⟨list, LIST_SIZE⟩} + (blocksOf ns + held) ≤ (↑(s.world.files a.stack).live : Multiset Range)
  idle : s.tasks = 0 → held = 0

section Runs

variable {a : Allocator} {list : Nat} {tag : UInt64} {ns₀ : List Node} {s₀ s : Shared ListOp (Option UInt64)}

theorem Starts.live (h : Starts a list ns₀ s₀) :
    {⟨list, LIST_SIZE⟩} + blocksOf ns₀ ≤ (↑(s₀.world.files a.stack).live : Multiset Range) := by
  have hblocks : (ns₀.map Node.block).Nodup := by
    have hnodup := h.chain.nodup
    have heq : ns₀.map Node.off = (ns₀.map Node.block).map Range.start := by rw [List.map_map]; rfl
    rw [heq] at hnodup
    exact hnodup.of_map _
  rw [Multiset.singleton_add, blocksOf, Multiset.cons_coe]
  apply (Multiset.le_iff_subset (Multiset.coe_nodup.mpr (List.nodup_cons.mpr ⟨fun hmem => ?_, hblocks⟩))).mpr
  · intro r hr
    rcases List.mem_cons.mp (Multiset.mem_coe.mp hr) with rfl | hr
    · exact Multiset.mem_coe.mpr h.chain.block
    · obtain ⟨n, hn, rfl⟩ := List.mem_map.mp hr
      exact Multiset.mem_coe.mpr (h.chain.nodes n hn)
  · obtain ⟨n, hn, heq⟩ := List.mem_map.mp hmem
    have hoff : n.off = list := congrArg Range.start heq
    exact h.chain.apart (hoff ▸ List.mem_map_of_mem hn)

/-- The calls of a list take effect one after the other. In every state that a run reaches, the chain is well formed
from both ends and holds what they leave; what they put in was handed out once or is still there; and each block that
was ever allocated for a node is in the chain, or is in the hands of one call, or was freed, and each of these once. -/
theorem list_linearizes (hstart : Starts a list ns₀ s₀) (hrun : Reaches a list tag s₀ s) :
    ∃ ns held l, Threaded a list ns₀ s ns held l := by
  have hlost : Shared.Run a.stack {⟨list, LIST_SIZE⟩} (fun _ => ListOp.code a list tag) noRoot s₀ s ∅ :=
    Shared.Run.of_steps (fun _ => id) hrun
  obtain ⟨ns, ts, l, hi⟩ := (sound a list tag).run hstart.fresh hstart.chain hstart.granted hstart.live hlost
  have hchain : ListAt (s.world.files a.stack) list .front ns := hi.holds
  have hlin : Linearizes object (ns₀.map Node.value) Set.univ s.events l := Set.compl_empty ▸ hi.lin
  have hvalue : after object (ns₀.map Node.value) l = ns.map Node.value := hi.value
  refine ⟨ns, (ts.map Discipline.Flight.held).sum, l, hchain, hlin, hvalue, hchain.walk, ?_, ?_, hi.granted, hi.own,
    fun hidle => ?_⟩
  · have hback := hchain.flip.walk
    rw [List.map_reverse] at hback
    exact hback
  · have hvalues := hlin.legal.conserved (fun ref => (↑ref : Multiset UInt64)) (fun e => e.op.puts e.res)
      (fun e => e.op.takes e.res) fun _ _ h => puts_takes h
    rw [hvalue] at hvalues
    exact hvalues
  · have htasks := hi.tasks
    rw [hidle] at htasks
    rw [Multiset.map_eq_zero.mp htasks.symm]
    rfl

end Runs

/-! ### A run -/

section Example

def idleList : Shared ListOp (Option UInt64) where
  world := freshList
  tasks := 0
  events := []
  granted := 0
  freed := 0

theorem idleList_starts : Starts oneAllocator 16 [] idleList where
  fresh := ⟨rfl, rfl, rfl, rfl⟩
  chain := ⟨by decide +kernel, fun _ h => absurd h List.not_mem_nil, List.not_mem_nil, trivial,
    fun _ h => absurd h List.not_mem_nil, by decide +kernel, by decide +kernel, by decide +kernel⟩
  granted := rfl

/-- Pushes and pops at both ends whose steps are mixed. -/
def pushesAndPops : List (Move ListOp) :=
  [.call 0 3 (.pushBack 5), .turn 0, .call 1 3 .popFront, .turn 1, .call 2 3 (.pushFront 4)] ++ Move.turns 3 1 ++
    Move.turns 4 2 ++ [.call 3 0 .popBack, .turn 3] ++ Move.turns 4 0 ++ Move.turns 4 3 ++
    [.call 4 0 .popFront] ++ Move.turns 4 4

theorem list_linearizes_popped : ∃ s, Reaches oneAllocator 16 3 idleList s ∧
    s.events = [.call 0 (.pushBack 5), .call 1 .popFront, .call 2 (.pushFront 4), .ret 1 (.ok none), .ret 2 (.ok none),
      .call 3 .popBack, .ret 0 (.ok none), .ret 3 (.ok (some 4)), .call 4 .popFront, .ret 4 (.ok (some 5))] ∧
    ∃ ns held l, Threaded oneAllocator 16 [] s ns held l := by
  have hrun : Reaches oneAllocator 16 3 idleList
      ((Played.idle freshList).play 0 (fun _ => ListOp.code oneAllocator 16 3) pushesAndPops).shared :=
    Played.play_steps (Played.idle freshList) pushesAndPops
  exact ⟨_, hrun, by decide +kernel, list_linearizes idleList_starts hrun⟩

end Example

end BStackLinkedList

end BStackRaii
