import BStackRaii.Proof.Faults
import BStackRaii.Proof.LinkedList
/-!
# When a pop loses its value

A pop unlinks a node and then frees its shell. Up to the commit a failed step changes nothing. The free comes
behind the commit, and where it fails the value is neither in the list nor with the caller.
-/

namespace BStackRaii

namespace BStackLinkedList

section Failure

variable {a : Allocator} {list : Nat} {s : Side} {ns : List Node} {n : Node} {w : World}

/-- A pop at the end `s` of the list `ns` keeps its value: it stays in the list, or it is returned. -/
def PopKeeps (a : Allocator) (list : Nat) (s : Side) (w : World) (ns : List Node) : Prop :=
  let r := (pop a list s).run w
  match r.out with
  | .error _ => ListAt (r.final.files a.stack) list s ns
  | .ok none => ns = [] ∧ ListAt (r.final.files a.stack) list s []
  | .ok (some v) => ∃ n rest, ns = n :: rest ∧ v = n.value ∧ ListAt (r.final.files a.stack) list s rest

/-- Four reads and the commit work, and the free of the shell does not. -/
def FreeFails (w : World) : Prop := w.Works 5 ∧ w.faults[5]? = some true

instance (w : World) : Decidable (FreeFails w) := inferInstanceAs (Decidable (_ ∧ _))

theorem pop_keeps_nil (h : ListAt (w.files a.stack) list s []) : PopKeeps a list s w [] := by
  obtain ⟨hok, herr, -⟩ := pop_nil_spec w (Under.refl ⟨h, rfl⟩)
  rw [PopKeeps]
  cases hout : ((pop a list s).run w).out with
  | ok o =>
      obtain ⟨rfl, hw⟩ := hok o hout
      exact ⟨rfl, hw.1.1⟩
  | error e => exact (herr e hout).2.1.1

section Cons

variable (h : ListAt (w.files a.stack) list s (n :: ns))
include h

/-- The words that the second round of a pop reads. -/
theorem ListAt.rounds :
    (∀ off ∈ [list + s.endOff, list + LEN_OFF], off + 8 ≤ (w.files a.stack).len) ∧
    (do
      let link ← checkedOff n.off s.inward
      let value ← checkedOff n.off NVAL_OFF
      pure [link, value] : Except IoError (List Nat)) = .ok [n.off + s.inward, n.off + NVAL_OFF] ∧
    (∀ off ∈ [n.off + s.inward, n.off + NVAL_OFF], off + 8 ≤ (w.files a.stack).len) ∧ n.off ≠ 0 := by
  have hblock := block_inside h.block
  have hnode := block_inside (h.nodes n List.mem_cons_self)
  have haddr := (w.files a.stack).addressable
  have hends := s.ends
  have hlinks := s.links
  have hoff : LEN_OFF = 32 := rfl
  have hval : NVAL_OFF = 32 := rfl
  simp only [List.mem_cons, List.not_mem_nil, or_false, forall_eq_or_imp, forall_eq]
  refine ⟨by omega, ?_, by omega, by omega⟩
  rw [checkedOff_ok (by omega), checkedOff_ok (by omega)]
  rfl

/-- The commit of a pop is its fifth I/O step. -/
theorem unlink_works (hworks : w.Works 5) : ∃ ws, (∀ x ∈ ws, x.1 + x.2.length ≤ (w.files a.stack).len) ∧
    (unlink a list s).run w = ⟨.ok (some (n.off, n.value.toNat)), World.storeAll a.stack ws (w.skip 5), [w]⟩ ∧
    ListAt (File.writeAll ws (w.files a.stack)) list s ns := by
  obtain ⟨ws, taken, heval, hin, rfl, hlist, -⟩ := Holds.take ⟨h, rfl⟩
  obtain ⟨h1, hround, h2, hne⟩ := h.rounds
  have hfirst : (w.files a.stack).bytes.word (list + s.endOff) = n.off := h.first
  refine ⟨ws, hin, atomicUpdate_works h1 ?_ h2 heval hin hworks, hlist⟩
  simp only [List.map_cons, List.getD_cons_zero, hfirst, if_neg hne, hround]

theorem unlink_struck (hstruck : ¬ w.Works 5) :
    ∃ m, (unlink a list s).run w = ⟨.error ioFault, w.skip m, [w]⟩ := by
  obtain ⟨ws, taken, heval, -⟩ := Holds.take ⟨h, rfl⟩
  obtain ⟨h1, hround, h2, hne⟩ := h.rounds
  have hfirst : (w.files a.stack).bytes.word (list + s.endOff) = n.off := h.first
  refine atomicUpdate_struck h1 ?_ h2 heval hstruck
  simp only [List.map_cons, List.getD_cons_zero, hfirst, if_neg hne, hround]

/-- Up to its commit a pop that fails changes nothing. -/
theorem pop_struck (hstruck : ¬ w.Works 5) :
    ((pop a list s).run w).out = .error ioFault ∧ ((pop a list s).run w).final.files = w.files := by
  obtain ⟨m, hrun⟩ := unlink_struck h hstruck
  simp only [pop, Script.run_bind]
  rw [Prog.bind_of_error hrun]
  exact ⟨rfl, rfl⟩

/-- Behind its commit a pop that fails has taken the node out. -/
theorem pop_lost (hworks : w.Works 5) (hfault : w.faults[5]? = some true) :
    ((pop a list s).run w).out = .error ioFault ∧ ListAt (((pop a list s).run w).final.files a.stack) list s ns := by
  obtain ⟨ws, -, hrun, hlist⟩ := unlink_works h hworks
  have hf : (World.storeAll a.stack ws (w.skip 5)).Faulty := by
    rw [World.Faulty, World.faults_storeAll]
    exact World.faulty_skip.mpr hfault
  have hmem : (⟨n.off, NODE_SIZE⟩ : Range) ∈ ((World.storeAll a.stack ws (w.skip 5)).files a.stack).live := by
    rw [World.live_storeAll]
    exact h.nodes n List.mem_cons_self
  have hfree := deallocRange_if hmem
  rw [if_pos hf] at hfree
  simp only [pop, Script.run_bind]
  rw [Prog.bind_of_ok hrun]
  simp only [Script.run_bind, Script.run_atom]
  rw [Prog.bind_of_error hfree]
  refine ⟨rfl, ?_⟩
  show ListAt ((World.storeAll a.stack ws (w.skip 5)).files a.stack) list s ns
  rw [World.files_storeAll]
  exact hlist

/-- A pop whose steps all work returns the value. -/
theorem pop_taken (hworks : w.Works 5) (hfault : w.faults[5]? ≠ some true) :
    ((pop a list s).run w).out = .ok (some n.value) ∧
      ListAt (((pop a list s).run w).final.files a.stack) list s ns := by
  obtain ⟨ws, -, hrun, hlist⟩ := unlink_works h hworks
  have hf : ¬ (World.storeAll a.stack ws (w.skip 5)).Faulty := by
    rw [World.Faulty, World.faults_storeAll]
    exact fun hf => hfault (World.faulty_skip.mp hf)
  have hmem : (⟨n.off, NODE_SIZE⟩ : Range) ∈ ((World.storeAll a.stack ws (w.skip 5)).files a.stack).live := by
    rw [World.live_storeAll]
    exact h.nodes n List.mem_cons_self
  have hfree := deallocRange_if hmem
  rw [if_neg hf] at hfree
  have hshell := Holds.taken_free (n := n) hlist rfl
    (List.nodup_cons.mp h.nodup).1 fun heq => h.apart (heq ▸ List.mem_cons_self)
  simp only [pop, Script.run_bind]
  rw [Prog.bind_of_ok hrun]
  simp only [Script.run_bind, Script.run_atom, Script.run_pure]
  rw [Prog.bind_of_ok hfree]
  refine ⟨congrArg (fun v => Except.ok (some v)) UInt64.ofNat_toNat, ?_⟩
  show ListAt (((World.storeAll a.stack ws (w.skip 5)).tick.release a.stack n.block).files a.stack) list s ns
  rw [World.files_release_same, World.files_tick, World.files_storeAll]
  exact hshell.1

end Cons

/-- A pop keeps its value exactly when the list is empty or the free of the shell, once it is reached, works. -/
theorem pop_keeps_iff (h : ListAt (w.files a.stack) list s ns) :
    PopKeeps a list s w ns ↔ ns = [] ∨ ¬ FreeFails w := by
  cases ns with
  | nil => exact iff_of_true (pop_keeps_nil h) (.inl rfl)
  | cons n ns =>
      have hcons : n :: ns ≠ [] := List.cons_ne_nil n ns
      by_cases hworks : w.Works 5
      · by_cases hfault : w.faults[5]? = some true
        · -- the list that is left is one shorter than the one that was there
          obtain ⟨hout, hlist⟩ := pop_lost h hworks hfault
          refine iff_of_false (fun hkeeps => ?_) fun hor => hor.elim hcons fun hno => hno ⟨hworks, hfault⟩
          simp only [PopKeeps, hout] at hkeeps
          have hlen := hkeeps.len
          rw [hlist.len, List.length_cons] at hlen
          omega
        · obtain ⟨hout, hlist⟩ := pop_taken h hworks hfault
          refine iff_of_true ?_ (.inr fun hfails => hfault hfails.2)
          simp only [PopKeeps, hout]
          exact ⟨n, ns, rfl, rfl, hlist⟩
      · obtain ⟨hout, hfiles⟩ := pop_struck h hworks
        refine iff_of_true ?_ (.inr fun hfails => hworks hfails.1)
        simp only [PopKeeps, hout, hfiles]
        exact h

end Failure

/-! ### A lost value -/

section Example

theorem oneNode_listAt : ListAt (oneNode.files oneAllocator.stack) 16 .back [⟨100, 5⟩] where
  block := by decide +kernel
  nodes := by decide +kernel
  apart := by decide
  linked := ⟨by decide +kernel, by decide +kernel, trivial⟩
  values := by decide +kernel
  first := by decide +kernel
  last := by decide +kernel
  len := by decide +kernel

/-- The free of the node is the step that fails. -/
def unfreed : World := { oneNode with faults := [false, false, false, false, false, true] }

theorem pop_keeps_iff_one : PopKeeps oneAllocator 16 .back oneNode [⟨100, 5⟩] :=
  (pop_keeps_iff oneNode_listAt).mpr (.inr (by decide))

/-- The list had one value, the pop fails, and the list is empty. -/
theorem pop_loses_value : ListAt (unfreed.files oneAllocator.stack) 16 .back [⟨100, 5⟩] ∧
    ((popBack oneAllocator 16).run unfreed).out = .error ioFault ∧
    walk (((popBack oneAllocator 16).run unfreed).final.files oneAllocator.stack).bytes 16 .front = [] ∧
    ¬ PopKeeps oneAllocator 16 .back unfreed [⟨100, 5⟩] := by
  have hlist : ListAt (unfreed.files oneAllocator.stack) 16 .back [⟨100, 5⟩] := oneNode_listAt
  obtain ⟨hout, hleft⟩ := pop_lost hlist (by decide) (by decide)
  refine ⟨hlist, hout, ?_, fun hkeeps => ?_⟩
  · have hwalk := hleft.flip.walk
    exact hwalk
  · simp only [PopKeeps, hout] at hkeeps
    have hlen := hkeeps.len
    rw [hleft.len] at hlen
    exact absurd hlen (by decide)

end Example

end BStackLinkedList

end BStackRaii
