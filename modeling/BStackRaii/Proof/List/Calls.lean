import BStackRaii.Proof.List.Disk
import BStackRaii.Proof.Shared
/-!
# Calls on a linked list

A push or a pop does its work in one generator, with an allocation before it or a free behind it. A failed
call leaves the chain as it was, except that a pop whose shell could not be freed has taken its element. A
failed I/O step may leave one node behind that no chain has.
-/

namespace BStackRaii

namespace BStackLinkedList

/-! ### A push and a pop -/

section Calls

variable {a : Allocator} {list : Nat} {s : Side} {ns : List Node} {n : Node} {live : Multiset Range} {w w₀ : World}
  {C : World → Prop} {f : File}

/-- The list holds `ns`, and the blocks of the file are `live`. -/
def Holds (list : Nat) (s : Side) (ns : List Node) (live : Multiset Range) (f : File) : Prop :=
  ListAt f list s ns ∧ (f.live : Multiset Range) = live

theorem ListAt.allocAt {r : Range} (h : ListAt f list s ns) (hr : f.Admits r) :
    ListAt (f.allocAt r hr) list s ns := by
  apply h.frame
  intro b hb
  have hlive : b ∈ f.live := by
    cases hb with
    | inl heq => exact heq ▸ h.block
    | inr hmem =>
        obtain ⟨n, hn, rfl⟩ := List.mem_map.mp hmem
        exact h.nodes n hn
  refine ⟨List.mem_cons_of_mem r hlive, fun x hx hx' => ?_⟩
  rw [File.bytes_allocAt]
  cases (hr.2.2 b hlive).2 with
  | inl hle => exact Mem.write_of_lt (Nat.lt_of_lt_of_le hx' hle)
  | inr hge => exact Mem.write_of_ge (by rw [List.length_replicate]; exact Nat.le_trans hge hx)

theorem ListAt.free {r : Range} (h : ListAt f list s ns) (hlist : r ≠ ⟨list, LIST_SIZE⟩)
    (hnodes : r ∉ ns.map Node.block) : ListAt (f.free r) list s ns := by
  apply h.frame
  rintro b (rfl | hmem)
  · exact ⟨(List.mem_erase_of_ne hlist.symm).mpr h.block, fun _ _ _ => rfl⟩
  · obtain ⟨n, hn, rfl⟩ := List.mem_map.mp hmem
    have hne : n.block ≠ r := fun heq => hnodes (heq ▸ hmem)
    exact ⟨(List.mem_erase_of_ne hne).mpr (h.nodes n hn), fun _ _ _ => rfl⟩

/-- A node that a push has allocated, before it is linked in. -/
structure Orphan (list : Nat) (s : Side) (ns : List Node) (live : Multiset Range) (node : Nat) (f : File) : Prop where
  chain : ListAt f list s ns
  live_eq : (f.live : Multiset Range) = ⟨node, NODE_SIZE⟩ ::ₘ live
  ne_list : node ≠ list
  fresh : node ∉ ns.map Node.off

namespace Orphan

variable {node : Nat}

theorem mem_live (h : Orphan list s ns live node f) : ⟨node, NODE_SIZE⟩ ∈ f.live := by
  rw [← Multiset.mem_coe, h.live_eq]
  exact Multiset.mem_cons_self _ _

theorem of_alloc {r : Range} (h : Holds list s ns live f) (hr : f.Admits r) (hlen : r.len = NODE_SIZE) :
    Orphan list s ns live r.start (f.allocAt r hr) := by
  obtain ⟨start, len⟩ := r
  cases hlen
  refine ⟨h.1.allocAt hr, ?_, ?_, ?_⟩
  · rw [File.live_allocAt, ← Multiset.cons_coe, h.2]
    rfl
  · rintro rfl
    exact (hr.2.2 _ h.1.block).1 rfl
  · intro hmem
    exact (hr.2.2 _ (h.1.mem_live hmem)).1 rfl

theorem freed (h : Orphan list s ns live node f) : Holds list s ns live (f.free ⟨node, NODE_SIZE⟩) := by
  refine ⟨h.chain.free (fun heq => h.ne_list (congrArg Range.start heq)) fun hmem => ?_, ?_⟩
  · obtain ⟨n, hn, heq⟩ := List.mem_map.mp hmem
    have hoff : n.off = node := congrArg Range.start heq
    exact h.fresh (hoff ▸ List.mem_map_of_mem hn)
  · rw [File.live_free, ← Multiset.coe_erase, h.live_eq, Multiset.erase_cons_head]

theorem update (h : Orphan list s ns live node f) (tag v : UInt64) :
    ∃ ws u, (updateGen [list + s.endOff, list + LEN_OFF] (fun _ => .ok []) fun v1 _ => do
        let ws ← linkWrites list tag s node v.toNat (v1.getD 0 0) (v1.getD 1 0)
        pure (ws, ())).eval f = .ok (ws, u) ∧ (∀ x ∈ ws, x.1 + x.2.length ≤ f.len) ∧
      Holds list s (⟨node, v⟩ :: ns) (⟨node, NODE_SIZE⟩ ::ₘ live) (File.writeAll ws f) := by
  obtain ⟨ws, hws, hin, hlinked⟩ := h.chain.link tag v h.mem_live h.ne_list h.fresh
  have hblock := block_inside h.chain.block
  have hends := s.ends
  have hoff : LEN_OFF = 32 := rfl
  refine ⟨ws, (), ?_, hin, hlinked, by rw [File.live_writeAll, h.live_eq]⟩
  rw [eval_updateGen [] _ rfl fun _ hx => absurd hx List.not_mem_nil]
  · simp only [List.map_cons, List.map_nil, List.getD_cons_zero, List.getD_cons_succ, h.chain.first, h.chain.len, hws]
    rfl
  · intro off hoff'
    simp only [List.mem_cons, List.not_mem_nil, or_false] at hoff'
    omega

end Orphan

/-- A push puts its value in front or fails. A failed I/O step may leave its node behind. -/
theorem push_spec (tag v : UInt64) : Prog.Spec (Under w₀ a.stack (Holds list s ns live)) (push a list tag s v).run
    (fun _ w => ∃ node, Under w₀ a.stack (Holds list s (⟨node, v⟩ :: ns) (⟨node, NODE_SIZE⟩ ::ₘ live)) w)
    (fun e w => (EnvError a NODE_SIZE w₀ e w ∧ Under w₀ a.stack (Holds list s ns live) w) ∨
      (IoFailed w₀ e ∧ ∃ node, Under w₀ a.stack (Orphan list s ns live node) w)) fun _ => True := by
  simp only [push, Script.run_bind, Script.run_atom, Script.run_attempt]
  apply Prog.Spec.bind (alloc_under (J := fun r => Orphan list s ns live r.start)
    (fun f r hr hf hlen => Orphan.of_alloc hf hr hlen) (fun _ _ => trivial) fun e w he hw => .inl ⟨he, hw⟩)
  intro r
  apply Prog.Spec.bind (Prog.Spec.attempt (R := Prog.Either
    (fun _ w => Under w₀ a.stack (Holds list s (⟨r.start, v⟩ :: ns) (⟨r.start, NODE_SIZE⟩ ::ₘ live)) w)
    fun e w => IoFailed w₀ e ∧ Under w₀ a.stack (Orphan list s ns live r.start) w)
    (atomicUpdate_under (fun f hf => hf.update tag v) (fun _ _ => trivial) fun e w he hw => ⟨he, hw⟩))
  intro res
  cases res with
  | ok u => exact Prog.Spec.pure fun w hw => ⟨r.start, hw⟩
  | error e =>
      apply Prog.Spec.given
      intro he
      simp only [Script.run_bind, Script.run_attempt, Script.run_atom, Script.run_fail]
      apply Prog.Spec.bind (attempt_dealloc_under
        (J := fun f => Holds list s ns live f ∨ Orphan list s ns live r.start f)
        (fun f hf => .inr hf) (fun f hf _ => .inl hf.freed) fun _ _ => trivial)
      intro u
      apply Prog.Spec.fail
      intro w hw
      cases hw.1 with
      | inl hh => exact .inl ⟨.inl he, hh, hw.2⟩
      | inr ho => exact .inr ⟨he, r.start, ho, hw.2⟩

/-- A pop of the empty list. -/
theorem pop_nil_spec : Prog.Spec (Under w₀ a.stack (Holds list s [] live)) (pop a list s).run
    (fun o w => o = none ∧ Under w₀ a.stack (Holds list s [] live) w)
    (fun e w => IoFailed w₀ e ∧ Under w₀ a.stack (Holds list s [] live) w) fun _ => True := by
  simp only [pop, Script.run_bind]
  apply Prog.Spec.bind_value ((atomicUpdate_under (J := fun o f => o = none ∧ Holds list s [] live f) (fun f hf => ?_)
    (fun _ _ => trivial) fun e w he hw => ⟨he, hw⟩).weaken (fun _ h => h) (fun _ _ h => h.given) (fun _ _ h => h)
    fun _ h => h)
  · exact Prog.Spec.pure fun w hw => ⟨rfl, hw⟩
  · have hblock := block_inside hf.1.block
    have hends := s.ends
    have hoff : LEN_OFF = 32 := rfl
    have hfirst : f.bytes.word (list + s.endOff) = 0 := hf.1.first
    refine ⟨[], none, ?_, fun x hx => absurd hx List.not_mem_nil, rfl, hf⟩
    rw [eval_updateGen [] _ _ fun _ hx => absurd hx List.not_mem_nil]
    · simp only [List.map_cons, List.getD_cons_zero, hfirst, if_true]
    · intro off hoff'
      simp only [List.mem_cons, List.not_mem_nil, or_false] at hoff'
      omega
    · simp only [List.map_cons, List.getD_cons_zero, hfirst, if_true]

theorem Holds.taken_free (h : ListAt f list s ns) (hlive : (f.live : Multiset Range) = live)
    (hn : n.off ∉ ns.map Node.off) (hlist : n.off ≠ list) :
    Holds list s ns (live.erase n.block) (f.free n.block) := by
  refine ⟨h.free (fun heq => hlist (congrArg Range.start heq)) fun hmem => ?_, ?_⟩
  · obtain ⟨m, hm, heq⟩ := List.mem_map.mp hmem
    have hoff : m.off = n.off := congrArg Range.start heq
    exact hn (hoff ▸ List.mem_map_of_mem hm)
  · rw [File.live_free, ← Multiset.coe_erase, hlive]

/-- The batch of a pop takes the first node out. -/
theorem Holds.take (h : Holds list s (n :: ns) live f) :
    ∃ ws taken, (updateGen [list + s.endOff, list + LEN_OFF]
      (fun v1 =>
        if v1.getD 0 0 = 0 then .ok []
        else do
          let link ← checkedOff (v1.getD 0 0) s.inward
          let value ← checkedOff (v1.getD 0 0) NVAL_OFF
          pure [link, value])
      fun v1 v2 =>
        if v1.getD 0 0 = 0 then .ok ([], none)
        else do
          let ws ← unlinkWrites list s (v2.getD 0 0) (v1.getD 1 0)
          pure (ws, some (v1.getD 0 0, v2.getD 1 0))).eval f = .ok (ws, taken) ∧
      (∀ x ∈ ws, x.1 + x.2.length ≤ f.len) ∧ taken = some (n.off, n.value.toNat) ∧
      Holds list s ns live (File.writeAll ws f) := by
  obtain ⟨ws, hws, hin, hunlinked⟩ := h.1.unlink
  have hblock := block_inside h.1.block
  have hnode := block_inside (h.1.nodes n List.mem_cons_self)
  have haddr := f.addressable
  have hends := s.ends
  have hlinks := s.links
  have hoff : LEN_OFF = 32 := rfl
  have hval : NVAL_OFF = 32 := rfl
  have hfirst : f.bytes.word (list + s.endOff) = n.off := h.1.first
  have hnext : f.bytes.word (n.off + s.inward) = (ns.map Node.off).headD 0 := h.1.linked.2.1
  have hvalue := h.1.values n List.mem_cons_self
  have hne : n.off ≠ 0 := by omega
  have hround : (do
      let link ← checkedOff n.off s.inward
      let value ← checkedOff n.off NVAL_OFF
      pure [link, value] : Except IoError (List Nat)) = .ok [n.off + s.inward, n.off + NVAL_OFF] := by
    rw [checkedOff_ok (by omega), checkedOff_ok (by omega)]
    rfl
  refine ⟨ws, _, ?_, hin, rfl, hunlinked, by rw [File.live_writeAll, h.2]⟩
  rw [eval_updateGen [n.off + s.inward, n.off + NVAL_OFF]]
  · simp only [List.map_cons, List.map_nil, List.getD_cons_zero, List.getD_cons_succ, hfirst, if_neg hne, hnext,
      hvalue, h.1.len, hws]
    rfl
  · intro off hoff'
    simp only [List.mem_cons, List.not_mem_nil, or_false] at hoff'
    omega
  · simp only [List.map_cons, List.getD_cons_zero, hfirst, if_neg hne, hround]
  · intro off hoff'
    simp only [List.mem_cons, List.not_mem_nil, or_false] at hoff'
    omega

/-- A pop takes the first node, or fails. A failed free leaves its shell behind. -/
theorem pop_cons_spec : Prog.Spec (Under w₀ a.stack (Holds list s (n :: ns) live)) (pop a list s).run
    (fun o w => o = some n.value ∧ Under w₀ a.stack (Holds list s ns (live.erase n.block)) w)
    (fun e w => IoFailed w₀ e ∧ (Under w₀ a.stack (Holds list s (n :: ns) live) w ∨
      Under w₀ a.stack (Holds list s ns live) w)) fun _ => True := by
  apply Prog.Spec.assume (φ := n.off ∉ ns.map Node.off ∧ n.off ≠ list ∧ n.block ∈ live)
  · intro w hw
    refine ⟨(List.nodup_cons.mp hw.1.1.nodup).1, ?_, ?_⟩
    · rintro rfl
      exact hw.1.1.apart List.mem_cons_self
    · rw [← hw.1.2]
      exact hw.1.1.nodes n List.mem_cons_self
  intro ⟨hfresh, hlist, hmem⟩
  simp only [pop, Script.run_bind]
  apply Prog.Spec.bind_value ((atomicUpdate_under
    (J := fun o f => o = some (n.off, n.value.toNat) ∧ Holds list s ns live f) (fun f hf => hf.take)
    (fun _ _ => trivial) fun e w he hw => ⟨he, .inl hw⟩).weaken (fun _ h => h) (fun _ _ h => h.given)
    (fun _ _ h => h) fun _ h => h)
  show Prog.Spec _ (do
    Script.atom (deallocRange a n.block)
    pure (some (UInt64.ofNat n.value.toNat)) : Script IoError World _).run _ _ _
  simp only [Script.run_bind, Script.run_atom, Script.run_pure]
  apply Prog.Spec.bind (Q := fun _ => Under w₀ a.stack (Holds list s ns (live.erase n.block)))
  · apply dealloc_under
    · intro f hf
      rw [← Multiset.mem_coe, hf.2]
      exact hmem
    · exact fun f hf => Holds.taken_free hf.1 hf.2 hfresh hlist
    · exact fun _ _ => trivial
    · exact fun e w he hw => ⟨he, .inr hw⟩
  · exact fun _ => Prog.Spec.pure fun w hw => ⟨by rw [UInt64.ofNat_toNat], hw⟩

/-! ### Walking -/

theorem ListAt.node_at {pre : List Node} (h : ListAt f list .front (pre ++ n :: ns)) :
    16 ≤ n.off ∧ n.off + 40 ≤ f.len ∧ f.bytes.word (n.off + NNEXT_OFF) = (ns.map Node.off).headD 0 ∧
      f.bytes.word (n.off + NVAL_OFF) = n.value.toNat := by
  have hmem : n ∈ pre ++ n :: ns := List.mem_append_right pre List.mem_cons_self
  have hin := block_inside (h.nodes n hmem)
  have hlinked := h.linked
  rw [List.map_append, List.map_cons, Chain.linked_append] at hlinked
  exact ⟨hin.1, hin.2, hlinked.2.2.1, h.values n hmem⟩

theorem node_fields {pre : List Node} : Prog.Spec (Under w₀ a.stack fun f => ListAt f list .front (pre ++ n :: ns))
    (do
      let off ← Prog.lift (checkedOff n.off NNEXT_OFF)
      readFields a.stack off 2)
    (fun fields w => fields = [(ns.map Node.off).headD 0, n.value.toNat] ∧
      Under w₀ a.stack (fun f => ListAt f list .front (pre ++ n :: ns)) w)
    (fun e w => IoFailed w₀ e ∧ Under w₀ a.stack (fun f => ListAt f list .front (pre ++ n :: ns)) w) C := by
  have hnext : NNEXT_OFF = 24 := rfl
  apply Prog.Spec.assume (φ := checkedOff n.off NNEXT_OFF = .ok (n.off + NNEXT_OFF))
  · intro w hw
    obtain ⟨-, hin, -⟩ := hw.1.node_at
    have haddr := (w.files a.stack).addressable
    exact checkedOff_ok (by omega)
  intro hcheck
  rw [hcheck, Prog.lift_ok, pure_bind]
  refine (readFields_under (fun f hf => ?_) fun e w he hw => ⟨he, hw⟩).weaken (fun _ h => h) (fun fields w hw => ?_)
    (fun _ _ h => h) fun _ h => h
  · obtain ⟨-, hin, -⟩ := hf.node_at
    omega
  · obtain ⟨⟨hf, rfl⟩, hq⟩ := hw
    obtain ⟨-, -, hword, hvalue⟩ := hf.node_at
    refine ⟨?_, hf, hq⟩
    show [(w.files a.stack).bytes.word (n.off + NNEXT_OFF + 0 * 8),
      (w.files a.stack).bytes.word (n.off + NNEXT_OFF + 1 * 8)] = _
    rw [show n.off + NNEXT_OFF + 0 * 8 = n.off + NNEXT_OFF from rfl, hword,
      show n.off + NNEXT_OFF + 1 * 8 = n.off + NVAL_OFF from rfl, hvalue]

theorem cur_ne {pre : List Node} (h : ListAt f list .front (pre ++ n :: ns)) :
    ((n :: ns).map Node.off).headD 0 ≠ 0 := by
  obtain ⟨hin, -⟩ := h.node_at
  show n.off ≠ 0
  omega

theorem toVecFrom_spec (pre : List Node) {remaining : Nat} (hlen : ns.length ≤ remaining) :
    Prog.Spec (Under w₀ a.stack fun f => ListAt f list .front (pre ++ ns))
      (toVecFrom a remaining ((ns.map Node.off).headD 0))
      (fun vs w => vs = ns.map Node.value ∧ Under w₀ a.stack (fun f => ListAt f list .front (pre ++ ns)) w)
      (fun e w => IoFailed w₀ e ∧ Under w₀ a.stack (fun f => ListAt f list .front (pre ++ ns)) w) C := by
  induction ns generalizing pre remaining with
  | nil =>
      have hdone : toVecFrom a remaining 0 = pure [] := by
        cases remaining <;> exact if_pos rfl
      rw [List.map_nil, List.headD_nil, hdone]
      exact Prog.Spec.pure fun w hw => ⟨rfl, hw⟩
  | cons n ns ih =>
      obtain ⟨m, rfl⟩ := Nat.exists_eq_add_of_le' (Nat.lt_of_lt_of_le (Nat.succ_pos _) hlen)
      apply Prog.Spec.assume (φ := ((n :: ns).map Node.off).headD 0 ≠ 0) fun w hw => cur_ne hw.1
      intro hne
      have hrest := ih (pre ++ [n]) (Nat.le_of_succ_le_succ hlen)
      rw [List.append_assoc, List.singleton_append] at hrest
      rw [toVecFrom, if_neg hne, List.map_cons, List.headD_cons, ← LawfulMonad.bind_assoc]
      apply Prog.Spec.bind_value node_fields
      apply Prog.Spec.bind_value hrest
      exact Prog.Spec.pure fun w hw => ⟨by simp, hw⟩

theorem head_spec : Prog.Spec (Under w₀ a.stack fun f => ListAt f list .front ns) (readU64 a.stack (list + HEAD_OFF))
    (fun v w => v = (ns.map Node.off).headD 0 ∧ Under w₀ a.stack (fun f => ListAt f list .front ns) w)
    (fun e w => IoFailed w₀ e ∧ Under w₀ a.stack (fun f => ListAt f list .front ns) w) C := by
  refine (readU64_under (fun f hf => ?_) fun e w he hw => ⟨he, hw⟩).weaken (fun _ h => h) (fun v w hw => ?_)
    (fun _ _ h => h) fun _ h => h
  · have hblock := block_inside hf.block
    have hoff : HEAD_OFF = 16 := rfl
    omega
  · exact ⟨hw.1.2.trans hw.1.1.first, hw.mono fun f hf => hf.1⟩

theorem len_spec : Prog.Spec (Under w₀ a.stack fun f => ListAt f list .front ns) (len a list)
    (fun v w => v = ns.length ∧ Under w₀ a.stack (fun f => ListAt f list .front ns) w)
    (fun e w => IoFailed w₀ e ∧ Under w₀ a.stack (fun f => ListAt f list .front ns) w) C := by
  refine (readU64_under (fun f hf => ?_) fun e w he hw => ⟨he, hw⟩).weaken (fun _ h => h) (fun v w hw => ?_)
    (fun _ _ h => h) fun _ h => h
  · have hblock := block_inside hf.block
    have hoff : LEN_OFF = 32 := rfl
    omega
  · exact ⟨hw.1.2.trans hw.1.1.len, hw.mono fun f hf => hf.1⟩

theorem toVec_spec : Prog.Spec (Under w₀ a.stack fun f => ListAt f list .front ns) (toVec a list)
    (fun vs w => vs = ns.map Node.value ∧ Under w₀ a.stack (fun f => ListAt f list .front ns) w)
    (fun e w => IoFailed w₀ e ∧ Under w₀ a.stack (fun f => ListAt f list .front ns) w) C := by
  apply Prog.Spec.bind_value head_spec
  apply Prog.Spec.bind_value len_spec
  exact toVecFrom_spec [] (Nat.le_refl _)

theorem iter_spec : Prog.Spec (Under w₀ a.stack fun f => ListAt f list .front ns) (iter a list)
    (fun it w => it = ⟨list, ns.length, (ns.map Node.off).headD 0, ns.length⟩ ∧
      Under w₀ a.stack (fun f => ListAt f list .front ns) w)
    (fun e w => IoFailed w₀ e ∧ Under w₀ a.stack (fun f => ListAt f list .front ns) w) C := by
  apply Prog.Spec.bind_value head_spec
  apply Prog.Spec.bind_value len_spec
  exact Prog.Spec.pure fun w hw => ⟨rfl, hw⟩

/-- The iterator yields the values that are left, one with each call. -/
theorem drain_spec (pre : List Node) {len0 calls : Nat} (hlen0 : len0 = (pre ++ ns).length)
    (hcalls : ns.length ≤ calls) : Prog.Spec (Under w₀ a.stack fun f => ListAt f list .front (pre ++ ns))
    (ListIter.drain a calls ⟨list, len0, (ns.map Node.off).headD 0, ns.length⟩)
    (fun vs w => vs = ns.map Node.value ∧ Under w₀ a.stack (fun f => ListAt f list .front (pre ++ ns)) w)
    (fun e w => IoFailed w₀ e ∧ Under w₀ a.stack (fun f => ListAt f list .front (pre ++ ns)) w) C := by
  induction ns generalizing pre calls with
  | nil =>
      cases calls with
      | zero => exact Prog.Spec.pure fun w hw => ⟨rfl, hw⟩
      | succ calls =>
          have hnext : (⟨list, len0, (([] : List Node).map Node.off).headD 0, 0⟩ : ListIter).next a =
              pure (none, ⟨list, len0, 0, 0⟩) := if_pos rfl
          rw [ListIter.drain, List.length_nil, hnext, pure_bind]
          exact Prog.Spec.pure fun w hw => ⟨rfl, hw⟩
  | cons n ns ih =>
      obtain ⟨m, rfl⟩ := Nat.exists_eq_add_of_le' (Nat.lt_of_lt_of_le (Nat.succ_pos _) hcalls)
      apply Prog.Spec.assume (φ := ((n :: ns).map Node.off).headD 0 ≠ 0) fun w hw => cur_ne hw.1
      intro hne
      have hrest := ih (pre ++ [n]) (by rw [hlen0, List.append_assoc, List.singleton_append])
        (Nat.le_of_succ_le_succ hcalls)
      rw [List.append_assoc, List.singleton_append] at hrest
      have hnext : Prog.Spec (Under w₀ a.stack fun f => ListAt f list .front (pre ++ n :: ns))
          ((⟨list, len0, ((n :: ns).map Node.off).headD 0, (n :: ns).length⟩ : ListIter).next a)
          (fun r w => r = (some n.value, ⟨list, len0, (ns.map Node.off).headD 0, ns.length⟩) ∧
            Under w₀ a.stack (fun f => ListAt f list .front (pre ++ n :: ns)) w)
          (fun e w => IoFailed w₀ e ∧ Under w₀ a.stack (fun f => ListAt f list .front (pre ++ n :: ns)) w) C := by
        rw [ListIter.next, if_neg hne]
        apply Prog.Spec.bind_value len_spec
        rw [if_neg (not_not_intro hlen0.symm), List.map_cons, List.headD_cons, List.length_cons]
        show Prog.Spec _ (Prog.lift (checkedOff n.off NNEXT_OFF) >>= fun off => readFields a.stack off 2 >>= _) _ _ _
        rw [← LawfulMonad.bind_assoc]
        apply Prog.Spec.bind_value node_fields
        exact Prog.Spec.pure fun w hw => ⟨by simp, hw⟩
      rw [ListIter.drain]
      apply Prog.Spec.bind_value hnext
      apply Prog.Spec.bind_value hrest
      exact Prog.Spec.pure fun w hw => ⟨rfl, hw⟩

/-! ### One call -/

/-- What a push at the end `s` does to the file, to its blocks and to its answer. -/
inductive Pushed (a : Allocator) (list : Nat) (s : Side) (ns : List Node) (v : UInt64) (w w' : World) :
    Except IoError Unit → Prop
  | linked (node : Nat) (h : ListAt (w'.files a.stack) list s (⟨node, v⟩ :: ns))
      (hnew : newBlocks a.stack w w' = {⟨node, NODE_SIZE⟩}) (hold : newBlocks a.stack w' w = 0) :
      Pushed a list s ns v w w' (.ok ())
  | refused (e : IoError) (he : EnvError a NODE_SIZE w e w') (h : ListAt (w'.files a.stack) list s ns)
      (hnew : newBlocks a.stack w w' = 0) (hold : newBlocks a.stack w' w = 0) : Pushed a list s ns v w w' (.error e)
  | orphaned (node : Nat) (e : IoError) (he : IoFailed w e) (h : ListAt (w'.files a.stack) list s ns)
      (hnew : newBlocks a.stack w w' = {⟨node, NODE_SIZE⟩}) (hold : newBlocks a.stack w' w = 0) :
      Pushed a list s ns v w w' (.error e)

/-- What a pop at the end `s` does. -/
inductive Popped (a : Allocator) (list : Nat) (s : Side) (w w' : World) :
    List Node → Except IoError (Option UInt64) → Prop
  | empty (h : ListAt (w'.files a.stack) list s []) (hnew : newBlocks a.stack w w' = 0)
      (hold : newBlocks a.stack w' w = 0) : Popped a list s w w' [] (.ok none)
  | taken (n : Node) (ns : List Node) (h : ListAt (w'.files a.stack) list s ns)
      (hnew : newBlocks a.stack w w' = 0) (hold : newBlocks a.stack w' w = {n.block}) :
      Popped a list s w w' (n :: ns) (.ok (some n.value))
  | failed (ns : List Node) (e : IoError) (he : IoFailed w e) (h : ListAt (w'.files a.stack) list s ns)
      (hnew : newBlocks a.stack w w' = 0) (hold : newBlocks a.stack w' w = 0) : Popped a list s w w' ns (.error e)
  | shell (n : Node) (ns : List Node) (e : IoError) (he : IoFailed w e) (h : ListAt (w'.files a.stack) list s ns)
      (hnew : newBlocks a.stack w w' = 0) (hold : newBlocks a.stack w' w = 0) :
      Popped a list s w w' (n :: ns) (.error e)

theorem newBlocks_eq {k : Nat} {w w' : World} {rs : Multiset Range}
    (h : ((w'.files k).live : Multiset Range) = rs + (w.files k).live) :
    newBlocks k w w' = rs ∧ newBlocks k w' w = 0 := by
  constructor
  · rw [newBlocks, h, add_tsub_cancel_right]
  · rw [newBlocks, h]
    exact tsub_eq_zero_of_le (Multiset.le_add_left _ _)

theorem push_cases (tag v : UInt64) (h : ListAt (w.files a.stack) list s ns) :
    Pushed a list s ns v w ((push a list tag s v).run w).final ((push a list tag s v).run w).out := by
  have hstart : Under w a.stack (Holds list s ns (w.files a.stack).live) w := Under.refl ⟨h, rfl⟩
  obtain ⟨hok, herr, -⟩ := push_spec tag v w hstart
  cases hout : ((push a list tag s v).run w).out with
  | ok u =>
      obtain ⟨node, ⟨hlist, hlive⟩, -⟩ := hok u hout
      have hone := hlive.trans (Multiset.singleton_add _ _).symm
      exact .linked node hlist (newBlocks_eq hone).1 (newBlocks_eq hone).2
  | error e =>
      cases herr e hout with
      | inl hcase =>
          obtain ⟨he, ⟨hlist, hlive⟩, -⟩ := hcase
          have hsame := hlive.trans (zero_add _).symm
          exact .refused e he hlist (newBlocks_eq hsame).1 (newBlocks_eq hsame).2
      | inr hcase =>
          obtain ⟨he, node, horphan, -⟩ := hcase
          have hone := horphan.live_eq.trans (Multiset.singleton_add _ _).symm
          exact .orphaned node e he horphan.chain (newBlocks_eq hone).1 (newBlocks_eq hone).2

theorem pop_cases (h : ListAt (w.files a.stack) list s ns) :
    Popped a list s w ((pop a list s).run w).final ns ((pop a list s).run w).out := by
  have hstart : Under w a.stack (Holds list s ns (w.files a.stack).live) w := Under.refl ⟨h, rfl⟩
  have hsame : ∀ {w' : World} {ms : List Node}, Holds list s ms (w.files a.stack).live (w'.files a.stack) →
      newBlocks a.stack w w' = 0 ∧ newBlocks a.stack w' w = 0 := fun hw =>
    newBlocks_eq (by rw [hw.2, zero_add])
  cases ns with
  | nil =>
      obtain ⟨hok, herr, -⟩ := pop_nil_spec w hstart
      cases hout : ((pop a list s).run w).out with
      | ok o =>
          obtain ⟨rfl, hw, -⟩ := hok o hout
          exact .empty hw.1 (hsame hw).1 (hsame hw).2
      | error e =>
          obtain ⟨he, hw, -⟩ := herr e hout
          exact .failed [] e he hw.1 (hsame hw).1 (hsame hw).2
  | cons n ns =>
      obtain ⟨hok, herr, -⟩ := pop_cons_spec w hstart
      cases hout : ((pop a list s).run w).out with
      | ok o =>
          obtain ⟨rfl, ⟨hlist, hlive⟩, -⟩ := hok o hout
          have hmem : n.block ∈ ((w.files a.stack).live : Multiset Range) := h.nodes n List.mem_cons_self
          have hback : ((w.files a.stack).live : Multiset Range) =
              {n.block} + (((pop a list s).run w).final.files a.stack).live := by
            rw [hlive, Multiset.singleton_add, Multiset.cons_erase hmem]
          exact .taken n ns hlist (newBlocks_eq hback).2 (newBlocks_eq hback).1
      | error e =>
          obtain ⟨he, hcase⟩ := herr e hout
          cases hcase with
          | inl hw => exact .failed (n :: ns) e he hw.1.1 (hsame hw.1).1 (hsame hw.1).2
          | inr hw => exact .shell n ns e he hw.1.1 (hsame hw.1).1 (hsame hw.1).2

end Calls

end BStackLinkedList

end BStackRaii
