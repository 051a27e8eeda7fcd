import BStackRaii.Proof.List.Calls
/-!
# The linked list refines a list

The reference is a list of value references. The history of a list is explained by the reference: each call
answers from it, or fails. In every state the chain is well formed, the walks along it yield the reference,
and the nodes that the calls have allocated and not freed are those of the chain and those that failed
I/O steps have left behind.
-/

namespace BStackRaii

namespace BStackLinkedList

/-! ### The reference -/

inductive ListOp
  | pushBack (value : UInt64)
  | pushFront (value : UInt64)
  | popBack
  | popFront
deriving DecidableEq, Repr

namespace ListOp

def code (a : Allocator) (list : Nat) (tag : UInt64) : ListOp → Script IoError World (Option UInt64)
  | pushBack value => do
      BStackLinkedList.pushBack a list tag value
      pure none
  | pushFront value => do
      BStackLinkedList.pushFront a list tag value
      pure none
  | popBack => BStackLinkedList.popBack a list
  | popFront => BStackLinkedList.popFront a list

def apply (ref : List UInt64) : ListOp → Option UInt64 × List UInt64
  | pushBack value => (none, ref ++ [value])
  | pushFront value => (none, value :: ref)
  | popBack => (ref.getLast?, ref.dropLast)
  | popFront => (ref.head?, ref.tail)

def IsPush : ListOp → Prop
  | pushBack _ => True
  | pushFront _ => True
  | popBack => False
  | popFront => False

end ListOp

/-- A call of a history: its outcome, and whether an I/O step may have failed in it. -/
structure Entry where
  op : ListOp
  out : Except IoError (Option UInt64)
  faulty : Prop

/-- What a call may do when the list holds `ref` and `lost` nodes were left behind. -/
inductive Answers (ref : List UInt64) (lost : Nat) : Entry → List UInt64 → Nat → Prop
  | done (op : ListOp) (faulty : Prop) : Answers ref lost ⟨op, .ok (op.apply ref).1, faulty⟩ (op.apply ref).2 lost
  | refused (op : ListOp) (faulty : Prop) (hop : op.IsPush) : Answers ref lost ⟨op, .error outOfSpace, faulty⟩ ref lost
  | failed (op : ListOp) {faulty : Prop} (hf : faulty) : Answers ref lost ⟨op, .error ioFault, faulty⟩ ref lost
  | orphaned (op : ListOp) {faulty : Prop} (hf : faulty) (hop : op.IsPush) :
      Answers ref lost ⟨op, .error ioFault, faulty⟩ ref (lost + 1)
  | shell (op : ListOp) {faulty : Prop} (hf : faulty) (hop : ¬ op.IsPush) :
      Answers ref lost ⟨op, .error ioFault, faulty⟩ (op.apply ref).2 (lost + 1)

/-- The calls of the history `log` leave the reference `ref`, and `lost` nodes behind. -/
inductive Explains : List Entry → List UInt64 → Nat → Prop
  | start : Explains [] [] 0
  | call {log : List Entry} {e : Entry} {ref ref' : List UInt64} {lost lost' : Nat} (h : Explains log ref lost)
      (ha : Answers ref lost e ref' lost') : Explains (log ++ [e]) ref' lost'

/-- Nothing is left behind where no I/O step fails. -/
theorem Explains.none_lost {log : List Entry} {ref : List UInt64} {lost : Nat} (h : Explains log ref lost)
    (hquiet : ∀ e ∈ log, ¬ e.faulty) : lost = 0 := by
  induction h with
  | start => rfl
  | call h ha ih =>
      have hbefore := ih fun e he => hquiet e (List.mem_append_left _ he)
      have hlast := hquiet _ (List.mem_append_right _ (List.mem_singleton_self _))
      cases ha with
      | done op faulty => exact hbefore
      | refused op faulty hop => exact hbefore
      | failed op hf => exact absurd hf hlast
      | orphaned op hf hop => exact absurd hf hlast
      | shell op hf hop => exact absurd hf hlast

/-! ### The life of a list -/

section Histories

variable (a : Allocator) (list : Nat) (tag : UInt64)

def Untouched (held : Multiset Range) (w w' : World) : Prop := ∀ r, r = ⟨list, LIST_SIZE⟩ ∨ r ∈ held →
  r ∈ (w'.files a.stack).live ∧ ∀ x, r.start ≤ x → x < r.stop →
    (w'.files a.stack).bytes x = (w.files a.stack).bytes x

/-- The life of a list: it is made, called any number of times, and other code runs in between. `held` are
the blocks that its calls have allocated and not freed. -/
inductive History : World → List Entry → Multiset Range → Prop
  | new {w : World} {listTag : UInt64} {b : Range} (hnew : (new a listTag w).out = .ok b) (hb : b.start = list) :
      History (new a listTag w).final [] 0
  | call {w : World} {log : List Entry} {held : Multiset Range} {out : Except IoError (Option UInt64)} (op : ListOp)
      (h : History w log held) (hout : ((op.code a list tag).run w).out = out) :
      History ((op.code a list tag).run w).final (log ++ [⟨op, out, ¬ w.Quiet⟩])
        (held + newBlocks a.stack w ((op.code a list tag).run w).final -
          newBlocks a.stack ((op.code a list tag).run w).final w)
  | elsewhere {w w' : World} {log : List Entry} {held : Multiset Range} (h : History w log held)
      (hkeep : Untouched a list held w w') : History w' log held

end Histories

section Steps

variable {a : Allocator} {list : Nat} {tag : UInt64} {w w' : World} {ref : List UInt64} {held : Multiset Range}
  {lost : Nat} {s : Side} {ns : List Node}

/-- Read from the end `s`, the list holds `ref`. The blocks `held` are its nodes and `lost` others. -/
structure Kept (a : Allocator) (list : Nat) (s : Side) (w : World) (ref : List UInt64) (held : Multiset Range)
    (lost : Nat) (ns : List Node) : Prop where
  chain : ListAt (w.files a.stack) list s ns
  values : ns.map Node.value = ref
  held_eq : ∃ leaked : Multiset Range, held = ↑(ns.map Node.block) + leaked ∧ leaked.card = lost

def heldAfter (a : Allocator) (held : Multiset Range) (w w' : World) : Multiset Range :=
  held + newBlocks a.stack w w' - newBlocks a.stack w' w

theorem heldAfter_same (hnew : newBlocks a.stack w w' = 0) (hold : newBlocks a.stack w' w = 0) :
    heldAfter a held w w' = held := by
  rw [heldAfter, hnew, hold, add_zero, tsub_zero]

namespace Kept

theorem flip (h : Kept a list s w ref held lost ns) : Kept a list s.flip w ref.reverse held lost ns.reverse := by
  obtain ⟨leaked, heq, hcard⟩ := h.held_eq
  refine ⟨h.chain.flip, by rw [List.map_reverse, h.values], leaked, ?_, hcard⟩
  rw [heq, List.map_reverse, Multiset.coe_reverse]

theorem push (h : Kept a list s w ref held lost ns) (v : UInt64) {out : Except IoError Unit}
    (hcall : Pushed a list s ns v w w' out) :
    (out = .ok () ∧ ∃ ns', Kept a list s w' (v :: ref) (heldAfter a held w w') lost ns') ∨
    (out = .error outOfSpace ∧ Kept a list s w' ref (heldAfter a held w w') lost ns) ∨
    (out = .error ioFault ∧ ¬ w.Quiet ∧ (Kept a list s w' ref (heldAfter a held w w') lost ns ∨
      Kept a list s w' ref (heldAfter a held w w') (lost + 1) ns)) := by
  obtain ⟨leaked, heq, hcard⟩ := h.held_eq
  cases hcall with
  | linked node hchain hnew hold =>
      refine .inl ⟨rfl, ⟨node, v⟩ :: ns, hchain, by rw [List.map_cons, h.values], leaked, ?_, hcard⟩
      rw [heldAfter, hnew, hold, tsub_zero, heq, List.map_cons, ← Multiset.cons_coe, add_comm,
        Multiset.singleton_add, Multiset.cons_add]
      rfl
  | refused e he hchain hnew hold =>
      have hkept : Kept a list s w' ref (heldAfter a held w w') lost ns := by
        rw [heldAfter_same hnew hold]
        exact ⟨hchain, h.values, leaked, heq, hcard⟩
      cases he with
      | inl he => exact .inr (.inr ⟨congrArg _ he.1, he.2, .inl hkept⟩)
      | inr he => exact .inr (.inl ⟨congrArg _ he.1, hkept⟩)
  | orphaned node e he hchain hnew hold =>
      refine .inr (.inr ⟨congrArg _ he.1, he.2, .inr ⟨hchain, h.values, ⟨node, NODE_SIZE⟩ ::ₘ leaked, ?_, ?_⟩⟩)
      · rw [heldAfter, hnew, hold, tsub_zero, heq, add_comm, Multiset.singleton_add, Multiset.add_cons]
      · rw [Multiset.card_cons, hcard]

theorem pop (h : Kept a list s w ref held lost ns) {out : Except IoError (Option UInt64)}
    (hcall : Popped a list s w w' ns out) :
    (out = .ok ref.head? ∧ ∃ ns', Kept a list s w' ref.tail (heldAfter a held w w') lost ns') ∨
    (out = .error ioFault ∧ ¬ w.Quiet ∧ (Kept a list s w' ref (heldAfter a held w w') lost ns ∨
      ∃ ns', Kept a list s w' ref.tail (heldAfter a held w w') (lost + 1) ns')) := by
  obtain ⟨leaked, heq, hcard⟩ := h.held_eq
  have hvalues := h.values
  cases hcall with
  | empty hchain hnew hold =>
      rw [heldAfter_same hnew hold, ← hvalues]
      exact .inl ⟨rfl, [], hchain, rfl, leaked, heq, hcard⟩
  | taken n ns hchain hnew hold =>
      rw [← hvalues]
      refine .inl ⟨rfl, ns, hchain, rfl, leaked, ?_, hcard⟩
      rw [heldAfter, hnew, hold, add_zero, heq, List.map_cons, ← Multiset.cons_coe, Multiset.cons_add,
        Multiset.sub_singleton, Multiset.erase_cons_head]
  | failed ns e he hchain hnew hold =>
      rw [heldAfter_same hnew hold]
      exact .inr ⟨congrArg _ he.1, he.2, .inl ⟨hchain, hvalues, leaked, heq, hcard⟩⟩
  | shell n ns e he hchain hnew hold =>
      rw [heldAfter_same hnew hold, ← hvalues]
      refine .inr ⟨congrArg _ he.1, he.2, .inr ⟨ns, hchain, rfl, n.block ::ₘ leaked, ?_, ?_⟩⟩
      · rw [heq, List.map_cons, ← Multiset.cons_coe, Multiset.cons_add, Multiset.add_cons]
      · rw [Multiset.card_cons, hcard]

end Kept

/-- A script whose result is dropped. -/
theorem run_discard {p : Script IoError World Unit} :
    ((p >>= fun _ => pure none : Script IoError World (Option UInt64)).run w).out = (p.run w).out.map (fun _ => none) ∧
      ((p >>= fun _ => pure none : Script IoError World (Option UInt64)).run w).final = (p.run w).final := by
  rw [Script.run_bind]
  cases hrun : p.run w with
  | mk out t cs =>
      cases out with
      | ok u =>
          rw [Prog.bind_of_ok hrun]
          exact ⟨rfl, rfl⟩
      | error e =>
          rw [Prog.bind_of_error hrun]
          exact ⟨rfl, rfl⟩

def Side.view {α : Type} (xs : List α) : Side → List α
  | front => xs
  | back => xs.reverse

theorem Side.view_view {α : Type} (s : Side) (xs : List α) : s.view (s.view xs) = xs := by
  cases s with
  | front => rfl
  | back => exact List.reverse_reverse xs

theorem Kept.view (h : Kept a list .front w ref held lost ns) (s : Side) :
    Kept a list s w (s.view ref) held lost (s.view ns) := by
  cases s with
  | front => exact h
  | back => exact h.flip

theorem Kept.unview (h : Kept a list s w ref held lost ns) :
    Kept a list .front w (s.view ref) held lost (s.view ns) := by
  cases s with
  | front => exact h
  | back => exact h.flip

section Calls

variable {op : ListOp}

/-- What the step lemma says of the call `op`. -/
def Stepped (a : Allocator) (list : Nat) (tag : UInt64) (w : World) (ref : List UInt64) (held : Multiset Range)
    (lost : Nat) (op : ListOp) : Prop := ∃ ref' lost' ns',
  Answers ref lost ⟨op, ((op.code a list tag).run w).out, ¬ w.Quiet⟩ ref' lost' ∧
    Kept a list .front ((op.code a list tag).run w).final ref'
      (heldAfter a held w ((op.code a list tag).run w).final) lost' ns'

theorem Kept.pushes (h : Kept a list .front w ref held lost ns) (s : Side) (v : UInt64) (hop : op.IsPush)
    (hcode : op.code a list tag = do
      BStackLinkedList.push a list tag s v
      pure none)
    (happly : op.apply ref = (none, s.view (v :: s.view ref))) : Stepped a list tag w ref held lost op := by
  obtain ⟨hout, hfinal⟩ := run_discard (p := BStackLinkedList.push a list tag s v) (w := w)
  rw [← hcode] at hout hfinal
  rw [Stepped, hout, hfinal]
  have hview := h.view s
  have hdone : Answers ref lost ⟨op, .ok (op.apply ref).1, ¬ w.Quiet⟩ (op.apply ref).2 lost := .done op _
  rw [happly] at hdone
  obtain ⟨hok, ns', hkept⟩ | ⟨herr, hkept⟩ | ⟨herr, hno, hkept | hkept⟩ := hview.push v (push_cases tag v hview.chain)
  · rw [hok]
    exact ⟨_, _, _, hdone, hkept.unview⟩
  · rw [herr]
    have hback := hkept.unview
    rw [Side.view_view] at hback
    exact ⟨_, _, _, .refused op _ hop, hback⟩
  · rw [herr]
    have hback := hkept.unview
    rw [Side.view_view] at hback
    exact ⟨_, _, _, .failed op hno, hback⟩
  · rw [herr]
    have hback := hkept.unview
    rw [Side.view_view] at hback
    exact ⟨_, _, _, .orphaned op hno hop, hback⟩

theorem Kept.pops (h : Kept a list .front w ref held lost ns) (s : Side) (hop : ¬ op.IsPush)
    (hcode : op.code a list tag = BStackLinkedList.pop a list s)
    (happly : op.apply ref = ((s.view ref).head?, s.view (s.view ref).tail)) :
    Stepped a list tag w ref held lost op := by
  rw [Stepped, hcode]
  have hview := h.view s
  have hdone : Answers ref lost ⟨op, .ok (op.apply ref).1, ¬ w.Quiet⟩ (op.apply ref).2 lost := .done op _
  have hshell : ¬ w.Quiet → Answers ref lost ⟨op, .error ioFault, ¬ w.Quiet⟩ (op.apply ref).2 (lost + 1) :=
    fun hno => .shell op hno hop
  rw [happly] at hdone
  rw [happly] at hshell
  obtain ⟨hok, ns', hkept⟩ | ⟨herr, hno, hkept | ⟨ns', hkept⟩⟩ := hview.pop (pop_cases hview.chain)
  · rw [hok]
    exact ⟨_, _, _, hdone, hkept.unview⟩
  · rw [herr]
    have hback := hkept.unview
    rw [Side.view_view] at hback
    exact ⟨_, _, _, .failed op hno, hback⟩
  · rw [herr]
    exact ⟨_, _, _, hshell hno, hkept.unview⟩

theorem Kept.call (tag : UInt64) (h : Kept a list .front w ref held lost ns) (op : ListOp) :
    Stepped a list tag w ref held lost op := by
  cases op with
  | pushFront v => exact h.pushes .front v trivial rfl rfl
  | pushBack v =>
      refine h.pushes .back v (show (ListOp.pushBack v).IsPush from trivial) rfl ?_
      show (none, ref ++ [v]) = (none, (v :: ref.reverse).reverse)
      rw [List.reverse_cons, List.reverse_reverse]
  | popFront => exact h.pops .front id rfl rfl
  | popBack =>
      refine h.pops .back (show ¬ ListOp.popBack.IsPush from id) rfl ?_
      show (ref.getLast?, ref.dropLast) = (ref.reverse.head?, ref.reverse.tail.reverse)
      rw [List.head?_reverse, List.tail_reverse, List.reverse_reverse]

end Calls

/-! ### The history -/

theorem new_spec (listTag : UInt64) : Prog.Spec (Under w a.stack fun _ => True) (new a listTag)
    (fun b w' => ListAt (w'.files a.stack) b.start .front []) (fun _ _ => True) fun _ => True := by
  apply (allocImage_spec _).weaken (fun _ h => h) ?_ (fun _ _ h => h) fun _ h => h
  intro b w' hw
  have hf := hw.1
  have hlen : b.len = LIST_SIZE := by
    rw [hf.len]
    simp [LIST_SIZE, HEADER_SIZE]
  have hread : (w'.files a.stack).bytes.read b.start 40 = nodeImage listTag 0 0 0 := by
    have himage := hf.read
    simp only [List.length_append, length_leBytes] at himage
    exact himage
  obtain ⟨hhead, htail, hcount⟩ := nodeImage_words (by decide) (by decide) (by decide) hread
  refine ⟨?_, fun n hn => absurd hn List.not_mem_nil, List.not_mem_nil, trivial, fun n hn => absurd hn List.not_mem_nil,
    hhead, htail, hcount⟩
  rw [← hlen]
  exact hf.live

/-- From one call to the next, the history is explained and the list holds the reference. -/
theorem History.kept {log : List Entry} (h : History a list tag w log held) :
    ∃ ref lost ns, Explains log ref lost ∧ Kept a list .front w ref held lost ns := by
  induction h with
  | new hnew hb =>
      obtain ⟨hok, -⟩ := new_spec _ _ (Under.refl trivial)
      exact ⟨[], 0, [], .start, hb ▸ hok _ hnew, rfl, 0, rfl, rfl⟩
  | call op _ hout ih =>
      obtain ⟨ref, lost, ns, hexplains, hkept⟩ := ih
      obtain ⟨ref', lost', ns', hanswers, hkept'⟩ := hkept.call tag op
      exact ⟨ref', lost', ns', .call hexplains (hout ▸ hanswers), hkept'⟩
  | elsewhere _ hkeep ih =>
      obtain ⟨ref, lost, ns, hexplains, hkept⟩ := ih
      obtain ⟨leaked, heq, hcard⟩ := hkept.held_eq
      refine ⟨ref, lost, ns, hexplains, hkept.chain.frame fun r hr => hkeep r ?_, hkept.values, leaked, heq, hcard⟩
      cases hr with
      | inl hr => exact .inl hr
      | inr hr => exact .inr (heq ▸ Multiset.mem_add.mpr (.inl hr))

/-! ### What the list is worth -/

/-- The values met from the end `s` on, at most `len` of them. -/
def walk (m : Mem) (list : Nat) (s : Side) : List UInt64 :=
  (Chain.follow (fun x => m.word (x + s.inward)) 0 (m.word (list + LEN_OFF)) (m.word (list + s.endOff))).map
    fun x => UInt64.ofNat (m.word (x + NVAL_OFF))

theorem ListAt.walk {f : File} (h : ListAt f list s ns) : walk f.bytes list s = ns.map Node.value := by
  have hfollow := h.linked.follow h.not_null (n := ns.length) (by rw [List.length_map])
  rw [BStackLinkedList.walk, h.len, h.first, hfollow, List.map_map]
  apply List.map_congr_left
  intro n hn
  show UInt64.ofNat (f.bytes.word (n.off + NVAL_OFF)) = n.value
  rw [h.values n hn, UInt64.ofNat_toNat]

/-- What the list is worth in the state `w` when the reference is `ref`: the chain of the nodes `ns` is well
formed, what walks along it yields the reference, and the blocks held are the nodes and `lost` others. -/
structure Refines (a : Allocator) (list : Nat) (w : World) (ref : List UInt64) (held : Multiset Range) (lost : Nat)
    (ns : List Node) : Prop where
  chain : ListAt (w.files a.stack) list .front ns
  values : ns.map Node.value = ref
  acyclic : (ns.map Node.off).Nodup
  inverse : ∀ x ∈ ns.map Node.off, ∀ y ∈ ns.map Node.off,
    (w.files a.stack).bytes.word (x + NNEXT_OFF) = y ↔ (w.files a.stack).bytes.word (y + NPREV_OFF) = x
  head_null : (w.files a.stack).bytes.word (list + HEAD_OFF) = 0 ↔ ref = []
  tail_null : (w.files a.stack).bytes.word (list + TAIL_OFF) = 0 ↔ ref = []
  len : (w.files a.stack).bytes.word (list + LEN_OFF) = ref.length
  forward : walk (w.files a.stack).bytes list .front = ref
  backward : walk (w.files a.stack).bytes list .back = ref.reverse
  toVec : (toVec a list w).out = .ok ref ∨ ∃ e, (toVec a list w).out = .error e ∧ IoFailed w e
  iter : ∀ calls, ref.length ≤ calls → ((iter a list >>= ListIter.drain a calls) w).out = .ok ref ∨
    ∃ e, ((iter a list >>= ListIter.drain a calls) w).out = .error e ∧ IoFailed w e
  blocks : ∃ leaked : Multiset Range, held = ↑(ns.map Node.block) + leaked ∧ leaked.card = lost

theorem Kept.refines (h : Kept a list .front w ref held lost ns) : Refines a list w ref held lost ns := by
  have hempty : ns.map Node.off = [] ↔ ref = [] := by
    rw [← h.values, List.map_eq_nil_iff, List.map_eq_nil_iff]
  have hlen : ns.length = ref.length := by rw [← h.values, List.length_map]
  have hnull := h.chain.not_null
  have hback : ListAt (w.files a.stack) list .back ns.reverse := h.chain.flip
  refine ⟨h.chain, h.values, h.chain.nodup, fun x hx y hy => ?_, ?_, ?_, ?_, ?_, ?_, ?_,
    fun calls hcalls => ?_, h.held_eq⟩
  · exact h.chain.linked.inverse hnull hnull hx hy
  · exact (h.chain.first ▸ Chain.headD_eq_stop hnull).trans hempty
  · have htail : (w.files a.stack).bytes.word (list + TAIL_OFF) = ((ns.map Node.off).reverse).headD 0 := by
      rw [← List.map_reverse]
      exact hback.first
    rw [htail, Chain.headD_eq_stop fun hmem => hnull (List.mem_reverse.mp hmem), List.reverse_eq_nil_iff, hempty]
  · rw [h.chain.len, hlen]
  · rw [h.chain.walk, h.values]
  · rw [hback.walk, List.map_reverse, h.values]
  · obtain ⟨hok, herr, -⟩ := toVec_spec (C := fun _ => True) w (Under.refl (k := a.stack) h.chain)
    cases hout : (BStackLinkedList.toVec a list w).out with
    | ok vs => exact .inl (congrArg _ ((hok vs hout).1.trans h.values))
    | error e => exact .inr ⟨e, rfl, (herr e hout).1⟩
  · have hdrained : Prog.Spec (Under w a.stack fun f => ListAt f list .front ns)
        (BStackLinkedList.iter a list >>= ListIter.drain a calls)
        (fun vs w' => vs = ns.map Node.value ∧ Under w a.stack (fun f => ListAt f list .front ns) w')
        (fun e w' => IoFailed w e ∧ Under w a.stack (fun f => ListAt f list .front ns) w') fun _ => True := by
      apply Prog.Spec.bind_value iter_spec
      exact drain_spec [] rfl (hlen ▸ hcalls)
    obtain ⟨hok, herr, -⟩ := hdrained w (Under.refl h.chain)
    cases hout : ((BStackLinkedList.iter a list >>= ListIter.drain a calls) w).out with
    | ok vs => exact .inl (congrArg _ ((hok vs hout).1.trans h.values))
    | error e => exact .inr ⟨e, rfl, (herr e hout).1⟩

/-- The calls of every history answer as the reference list does, and in each of its states the list refines
the reference. Where no I/O step fails, the nodes held are exactly those of the chain. -/
theorem list_refines_list {log : List Entry} (h : History a list tag w log held) :
    ∃ ref lost ns, Explains log ref lost ∧ Refines a list w ref held lost ns ∧
      ((∀ e ∈ log, ¬ e.faulty) → held = ↑(ns.map Node.block)) := by
  obtain ⟨ref, lost, ns, hexplains, hkept⟩ := h.kept
  refine ⟨ref, lost, ns, hexplains, hkept.refines, fun hquiet => ?_⟩
  obtain ⟨leaked, heq, hcard⟩ := hkept.held_eq
  rw [hexplains.none_lost hquiet] at hcard
  rw [heq, Multiset.card_eq_zero.mp hcard, add_zero]

end Steps

/-! ### A run -/

section Example

def oneAllocator : Allocator := ⟨0, true, none, 0⟩

def freshList : World := (new oneAllocator 7 (World.blank [16, 100, 200])).final

/-- The list once 5 is at its back. -/
def oneNode : World := ((ListOp.code oneAllocator 16 3 (.pushBack 5)).run freshList).final

def twoNodes : World := ((ListOp.code oneAllocator 16 3 (.pushFront 9)).run oneNode).final

def popped : World := ((ListOp.code oneAllocator 16 3 .popBack).run twoNodes).final

theorem list_refines_list_popped : ∃ ref lost ns,
    Explains [⟨.pushBack 5, .ok none, ¬ freshList.Quiet⟩, ⟨.pushFront 9, .ok none, ¬ oneNode.Quiet⟩,
      ⟨.popBack, .ok (some 5), ¬ twoNodes.Quiet⟩] ref lost ∧
    Refines oneAllocator 16 popped ref (heldAfter oneAllocator
      (heldAfter oneAllocator (heldAfter oneAllocator 0 freshList oneNode) oneNode twoNodes) twoNodes popped) lost ns ∧
    ((∀ e ∈ ([⟨.pushBack 5, .ok none, ¬ freshList.Quiet⟩, ⟨.pushFront 9, .ok none, ¬ oneNode.Quiet⟩,
      ⟨.popBack, .ok (some 5), ¬ twoNodes.Quiet⟩] : List Entry), ¬ e.faulty) →
      heldAfter oneAllocator (heldAfter oneAllocator (heldAfter oneAllocator 0 freshList oneNode) oneNode twoNodes)
        twoNodes popped = ↑(ns.map Node.block)) :=
  have hnew : History oneAllocator 16 3 freshList [] 0 := .new (b := ⟨16, 40⟩) rfl rfl
  have hback := hnew.call (.pushBack 5) (show _ = (.ok none : Except IoError (Option UInt64)) by decide +kernel)
  have hfront := hback.call (.pushFront 9) (show _ = (.ok none : Except IoError (Option UInt64)) by decide +kernel)
  list_refines_list (hfront.call .popBack (show _ = (.ok (some 5) : Except IoError (Option UInt64)) by decide +kernel))

end Example

end BStackLinkedList

end BStackRaii
