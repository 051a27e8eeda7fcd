import BStackRaii.Proof.Deque.Calls
/-!
# The deque among threads

Any number of calls of one deque are in flight, and their atomic steps interleave with each other and with
other code on the file. In every state that is reached, the ring holds what the calls that took effect leave
of the reference, and the blocks that were allocated are the ring, those in the hands of a call, and those that
were freed.
-/

namespace BStackRaii

namespace BStackDeque

open Linearize

/-! ### A fresh deque -/

section Fresh

variable {a : Allocator} {w₀ : World}

theorem withImage_spec (tag : UInt64) {data cap : Nat} {kept : List Range}
    (hkept : (cap = 0 ∧ data = 0 ∧ kept = []) ∨ (0 < cap ∧ kept = [⟨data, cap * 8⟩])) (hdata : data < 2 ^ 64)
    (hcap : cap < 2 ^ 64) :
    Prog.Spec (Under w₀ a.stack fun f => ∀ r ∈ kept, r ∈ f.live) (withImage a tag data cap)
      (fun b w => Under w₀ a.stack (Holds b.start ⟨⟨0, 0, cap, data⟩, []⟩) w) (fun _ _ => True) fun _ => True := by
  have himage : leBytes 8 DEQUE_SIZE ++ leBytes 8 tag.toNat ++ leBytes 8 data ++ leBytes 8 cap ++ leBytes 8 0 ++
      leBytes 8 0 = [DEQUE_SIZE, tag.toNat, data, cap, 0, 0].flatMap (leBytes 8) := by
    simp only [List.flatMap_cons, List.flatMap_nil, List.append_nil, List.append_assoc]
  have hsmall : ∀ v ∈ [DEQUE_SIZE, tag.toNat, data, cap, 0, 0], v < 2 ^ 64 := by
    have htag := tag.toNat_lt
    intro v hv
    simp only [List.mem_cons, List.not_mem_nil, or_false] at hv
    rcases hv with rfl | rfl | rfl | rfl | rfl | rfl
    · decide
    · exact htag
    · exact hdata
    · exact hcap
    · decide
    · decide
  have hpos : ∀ r ∈ kept, 0 < r.len := by
    intro r hr
    rcases hkept with ⟨-, -, rfl⟩ | ⟨hcap, rfl⟩
    · cases hr
    · cases List.mem_singleton.mp hr
      show 0 < cap * 8
      omega
  rw [withImage, himage]
  apply (allocWords_spec hsmall (by simp) hpos).weaken (fun _ h => h) ?_ (fun _ _ h => h) fun _ h => h
  intro b w hw
  refine hw.mono fun f hf => ⟨?_, rfl⟩
  refine ⟨hf.block, hf.words 2 (by simp), hf.words 3 (by simp), hf.words 4 (by simp), hf.words 5 (by simp),
    Nat.zero_le _, ?_, ?_, ?_⟩
  · exact (Nat.eq_zero_or_pos cap).symm.imp id fun hzero => ⟨hzero, rfl⟩
  · rcases hkept with ⟨-, rfl, -⟩ | ⟨-, rfl⟩
    · have hlow := hf.low
      show 0 ≠ b.start
      omega
    · exact (hf.kept _ (List.mem_singleton_self _)).2
  · rcases hkept with ⟨hzero, rfl, -⟩ | ⟨hcap, rfl⟩
    · exact .inl ⟨hzero, rfl⟩
    · exact .inr ⟨hcap, (hf.kept _ (List.mem_singleton_self _)).1⟩

/-- A fresh deque has no elements, and room for `cap`. -/
theorem withCapacity_spec (tag : UInt64) (cap : Nat) :
    Prog.Spec (Under w₀ a.stack fun _ => True) (withCapacity a tag cap)
      (fun b w => ∃ data, Under w₀ a.stack (Holds b.start ⟨⟨0, 0, cap, data⟩, []⟩) w)
      (fun _ _ => True) fun _ => True := by
  rw [withCapacity]
  by_cases hcap : cap = 0
  · subst hcap
    rw [if_pos rfl]
    have hnew : Prog.Spec (Under w₀ a.stack fun f => ∀ b ∈ ([] : List Range), b ∈ f.live) (withImage a tag 0 0) _ _ _ :=
      withImage_spec tag (.inl ⟨rfl, rfl, rfl⟩) (by decide) (by decide)
    exact hnew.weaken (fun w hw => hw.mono fun f _ r hr => absurd hr List.not_mem_nil) (fun b w hw => ⟨0, hw⟩)
      (fun _ _ h => h) fun _ h => h
  · rw [if_neg hcap]
    apply Prog.Spec.bind (alloc_under (J := fun r f => r ∈ f.live ∧ r.len = min (cap * 8) (2 ^ 64 - 1))
      (fun f r hr _ hlen => ⟨List.mem_cons_self, hlen⟩) (fun _ _ => trivial) fun _ _ _ _ => trivial)
    intro r
    apply Prog.Spec.assume (φ := r.start < 2 ^ 64 ∧ cap < 2 ^ 64 ∧ r.len = cap * 8)
    · intro w hw
      have hin := (w.files a.stack).inside r hw.1.1
      have haddr := (w.files a.stack).addressable
      have hlen := hw.1.2
      simp only [Range.stop] at hin
      omega
    rintro ⟨hstart, hsmall, hlen⟩
    have hkept : r = ⟨r.start, cap * 8⟩ := by rw [← hlen]
    apply Prog.Spec.bind (Q := fun o w => ∀ b, o = .ok b →
      ∃ data, Under w₀ a.stack (Holds b.start ⟨⟨0, 0, cap, data⟩, []⟩) w)
    · apply Prog.Spec.attempt
      have hbuilt : Prog.Spec (Under w₀ a.stack fun f => ∀ b ∈ [(⟨r.start, cap * 8⟩ : Range)], b ∈ f.live)
          (withImage a tag r.start cap) _ _ _ := withImage_spec tag (.inr ⟨Nat.pos_of_ne_zero hcap, rfl⟩) hstart hsmall
      refine hbuilt.weaken ?_ ?_ ?_ fun _ h => h
      · exact fun w hw => hw.mono fun f hf b hb => List.mem_singleton.mp hb ▸ hkept ▸ hf.1
      · intro b w hw b' hb
        cases hb
        exact ⟨r.start, hw⟩
      · intro e w _ b hb
        cases hb
    · intro built
      cases built with
      | ok b => exact Prog.Spec.pure fun w hw => hw b rfl
      | error e =>
          apply Prog.Spec.bind (Q := fun _ _ => True)
          · exact fun w _ => ⟨fun _ _ => trivial, fun _ _ => trivial, fun _ _ => trivial⟩
          · exact fun _ => Prog.Spec.fail fun _ _ => trivial

end Fresh

/-! ### Values -/

def DequeOp.puts : DequeOp → Except IoError (Option UInt64) → Multiset UInt64
  | pushBack v, .ok _ => {v}
  | pushFront v, .ok _ => {v}
  | _, _ => 0

def DequeOp.takes : DequeOp → Except IoError (Option UInt64) → Multiset UInt64
  | popBack, .ok (some v) => {v}
  | popFront, .ok (some v) => {v}
  | _, _ => 0

def pushed (l : List (Effect DequeOp (Except IoError (Option UInt64)))) : Multiset UInt64 :=
  (l.map fun e => e.op.puts e.res).sum

def popped (l : List (Effect DequeOp (Except IoError (Option UInt64)))) : Multiset UInt64 :=
  (l.map fun e => e.op.takes e.res).sum

theorem puts_takes {ref : List UInt64} {op : DequeOp} {out : Except IoError (Option UInt64)}
    (h : object.allows ref op out) : op.puts out + ↑ref = op.takes out + ↑(object.next ref op out) := by
  rcases h with rfl | ⟨hop, e, rfl, -⟩
  · cases op with
    | pushBack v =>
        show {v} + (ref : Multiset UInt64) = 0 + ↑(ref ++ [v])
        rw [zero_add, ← Multiset.coe_add, add_comm, Multiset.coe_singleton]
    | pushFront v =>
        show {v} + (ref : Multiset UInt64) = 0 + ↑(v :: ref)
        rw [zero_add, ← Multiset.cons_coe, Multiset.singleton_add]
    | popBack =>
        show 0 + (ref : Multiset UInt64) = DequeOp.popBack.takes (.ok ref.getLast?) + ↑ref.dropLast
        rw [zero_add]
        rcases List.eq_nil_or_concat ref with rfl | ⟨xs, v, rfl⟩
        · rfl
        · rw [List.concat_eq_append, List.getLast?_concat, List.dropLast_concat, ← Multiset.coe_add, add_comm]
          rfl
    | popFront =>
        show 0 + (ref : Multiset UInt64) = DequeOp.popFront.takes (.ok ref.head?) + ↑ref.tail
        cases ref with
        | nil => rfl
        | cons v ref => rw [zero_add, ← Multiset.cons_coe, ← Multiset.singleton_add]; rfl
  · cases op with
    | pushBack v => rfl
    | pushFront v => rfl
    | popBack => exact hop.elim
    | popFront => exact hop.elim

/-- What was put in was handed out, or is still there. -/
theorem pushed_popped {ref : List UInt64} {l : List (Effect DequeOp (Except IoError (Option UInt64)))}
    (h : Legal object ref l) : pushed l + ↑ref = popped l + ↑(after object ref l) := by
  induction l generalizing ref with
  | nil => rfl
  | cons e l ih =>
      have hone := puts_takes h.1
      have hrest := ih h.2
      show e.op.puts e.res + pushed l + ↑ref =
        e.op.takes e.res + popped l + ↑(after object (object.next ref e.op e.res) l)
      calc e.op.puts e.res + pushed l + ↑ref = e.op.puts e.res + ↑ref + pushed l := by abel
        _ = e.op.takes e.res + (pushed l + ↑(object.next ref e.op e.res)) := by rw [hone]; abel
        _ = e.op.takes e.res + popped l + ↑(after object (object.next ref e.op e.res) l) := by rw [hrest]; abel

/-! ### Runs -/

/-- Nobody has called the deque `x` yet. Its ring is the one block that counts as granted. -/
structure Starts (a : Allocator) (handle : Nat) (x : Deque) (s : Shared DequeOp (Option UInt64)) : Prop where
  fresh : s.Fresh
  holds : Holds handle x (s.world.files a.stack)
  granted : s.granted = x.ring.blocks

/-- The states that the calls of the deque and other code reach. -/
def Reaches (a : Allocator) (handle : Nat) : Shared DequeOp (Option UInt64) → Shared DequeOp (Option UInt64) → Prop :=
  Relation.ReflTransGen (Shared.Step a.stack {⟨handle, DEQUE_SIZE⟩} (DequeOp.code a handle))

/-- What a run from the deque `x₀` on has come to: the deque is `x`, the calls in flight own the blocks `held`, and
the calls that took effect did so in the order `l`. -/
structure Refines (a : Allocator) (handle : Nat) (x₀ : Deque) (s : Shared DequeOp (Option UInt64)) (x : Deque)
    (held : Multiset Range) (l : List (Effect DequeOp (Except IoError (Option UInt64)))) : Prop where
  holds : Holds handle x (s.world.files a.stack)
  ring : x.ring.len ≤ x.ring.cap ∧ (x.ring.head < x.ring.cap ∨ (x.ring.cap = 0 ∧ x.ring.head = 0 ∧ x.ring.len = 0))
  order : Linearizes object x₀.items Set.univ s.events l
  items : after object x₀.items l = x.items
  values : pushed l + ↑x₀.items = popped l + ↑x.items
  blocks : s.granted = x.ring.blocks + held + s.freed
  live : {⟨handle, DEQUE_SIZE⟩} + (x.ring.blocks + held) ≤ (↑(s.world.files a.stack).live : Multiset Range)
  idle : s.tasks = 0 → held = 0

section Runs

variable {a : Allocator} {handle : Nat} {x₀ : Deque} {s₀ s : Shared DequeOp (Option UInt64)}

theorem Starts.live (h : Starts a handle x₀ s₀) :
    {⟨handle, DEQUE_SIZE⟩} + x₀.ring.blocks ≤ (↑(s₀.world.files a.stack).live : Multiset Range) := by
  have hring := h.holds.ring
  rw [Multiset.singleton_add, Ring.blocks]
  by_cases hcap : 0 < x₀.ring.cap
  · have hlive := (hring.array.resolve_left (by omega)).2
    rw [if_pos hcap]
    apply (Multiset.le_iff_subset ?_).mpr
    · intro r hr
      rcases Multiset.mem_cons.mp hr with rfl | hr
      · exact Multiset.mem_coe.mpr hring.block
      · exact Multiset.mem_singleton.mp hr ▸ Multiset.mem_coe.mpr hlive
    · rw [Multiset.nodup_cons]
      refine ⟨fun hmem => hring.apart ?_, Multiset.nodup_singleton _⟩
      exact (congrArg Range.start (Multiset.mem_singleton.mp hmem)).symm
  · rw [if_neg hcap]
    exact Multiset.singleton_le.mpr (Multiset.mem_coe.mpr hring.block)

/-- The calls of a deque take effect one after the other. In every state that a run reaches, the ring is well formed
and holds what they leave; what they put in was handed out once or is still there; and each block that was ever
allocated for a ring is the ring, or is in the hands of one call, or was freed, and each of these once. -/
theorem deque_linearizes (hstart : Starts a handle x₀ s₀) (hrun : Reaches a handle s₀ s) :
    ∃ x held l, Refines a handle x₀ s x held l := by
  have hlost : Shared.Run a.stack {⟨handle, DEQUE_SIZE⟩} (DequeOp.code a handle) noRoot s₀ s ∅ :=
    Shared.Run.of_steps (fun _ => id) hrun
  obtain ⟨x, ts, l, hi⟩ := (sound a handle).run hstart.fresh hstart.holds hstart.granted hstart.live hlost
  have hring := hi.holds.ring
  have hlin : Linearizes object x₀.items Set.univ s.events l := Set.compl_empty ▸ hi.lin
  refine ⟨x, (ts.map Discipline.Flight.held).sum, l, hi.holds, ⟨hring.len_le, ?_⟩, hlin, hi.value, ?_, hi.granted,
    hi.own, fun hidle => ?_⟩
  · have hle := hring.len_le
    exact hring.head_lt.imp id fun hzero => ⟨hzero.1, hzero.2, by omega⟩
  · have hvalues := pushed_popped hlin.legal
    have hvalue : after object x₀.items l = x.items := hi.value
    rw [hvalue] at hvalues
    exact hvalues
  · have htasks := hi.tasks
    rw [hidle] at htasks
    rw [Multiset.map_eq_zero.mp htasks.symm]
    rfl

end Runs

/-! ### A run -/

section Example

def oneAllocator : Allocator := ⟨0, true, none, 0⟩

/-- An empty deque at 16 that has no ring yet. -/
def freshDeque : Shared DequeOp (Option UInt64) where
  world := (new oneAllocator 7 (World.blank [16, 1000])).final
  tasks := 0
  events := []
  granted := 0
  freed := 0

def noItems : Deque := ⟨⟨0, 0, 0, 0⟩, []⟩

theorem freshDeque_starts : Starts oneAllocator 16 noItems freshDeque := by
  refine ⟨⟨rfl, rfl, rfl, rfl⟩, ⟨?_, rfl⟩, rfl⟩
  exact ⟨by decide +kernel, by decide +kernel, by decide +kernel, by decide +kernel, by decide +kernel, by decide,
    .inr ⟨rfl, rfl⟩, by decide, .inl ⟨rfl, rfl⟩⟩

/-- A pop is between the steps of the push that grows the deque, and a pop between those of a push at the front. -/
def pushesAndPops : List (Move DequeOp) :=
  [.call 0 3 (.pushBack 5), .turn 0, .call 1 0 .popFront] ++ Move.turns 2 1 ++ Move.turns 9 0 ++
    [.call 2 3 (.pushFront 4), .turn 2, .call 3 0 .popBack] ++ Move.turns 2 3 ++ Move.turns 9 2 ++
    [.call 4 0 .popFront] ++ Move.turns 2 4

theorem deque_linearizes_popped : ∃ s, Reaches oneAllocator 16 freshDeque s ∧
    s.events = [.call 0 (.pushBack 5), .call 1 .popFront, .ret 1 (.ok none), .ret 0 (.ok none),
      .call 2 (.pushFront 4), .call 3 .popBack, .ret 3 (.ok (some 5)), .ret 2 (.ok none),
      .call 4 .popFront, .ret 4 (.ok (some 4))] ∧
    ∃ x held l, Refines oneAllocator 16 noItems s x held l := by
  have hrun : Reaches oneAllocator 16 freshDeque
      ((Played.idle freshDeque.world).play 0 (DequeOp.code oneAllocator 16) pushesAndPops).shared :=
    Played.play_steps (Played.idle freshDeque.world) pushesAndPops
  exact ⟨_, hrun, by decide +kernel, deque_linearizes freshDeque_starts hrun⟩

theorem no_ring_yet : ¬ ∀ (a : Allocator) (handle : Nat) (x₀ x : Deque) (s₀ s : Shared DequeOp (Option UInt64)),
    Starts a handle x₀ s₀ → Reaches a handle s₀ s → Holds handle x (s.world.files a.stack) →
    x.ring.head < x.ring.cap ∧ x.ring.len ≤ x.ring.cap := by
  intro h
  have hring := h oneAllocator 16 noItems noItems freshDeque freshDeque freshDeque_starts .refl freshDeque_starts.holds
  exact absurd hring.1 (by decide)

end Example

end BStackDeque

end BStackRaii
