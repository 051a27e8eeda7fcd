import BStackRaii.Proof.Deque.Commit
import BStackRaii.Proof.Interleaving
import Mathlib.Algebra.Order.PUnit
/-!
# The calls of a deque

The reference is a list. A push or a pop takes effect with the one generator that finds room or an element. A
call that grows the ring owns the block it has allocated until its swap, and the block it has replaced from
then on until it is freed. The step lemmas say so of one step each.
-/

namespace BStackRaii

namespace BStackDeque

open Linearize

/-! ### The reference -/

inductive DequeOp
  | pushBack (value : UInt64)
  | pushFront (value : UInt64)
  | popBack
  | popFront
deriving DecidableEq, Repr

namespace DequeOp

/-- The call. A push that succeeds answers nothing. -/
def code (a : Allocator) (handle attempts : Nat) : DequeOp → Script IoError World (Option UInt64)
  | pushBack value => do
      BStackDeque.pushBack a handle value attempts
      pure none
  | pushFront value => do
      BStackDeque.pushFront a handle value attempts
      pure none
  | popBack => BStackDeque.popBack a handle
  | popFront => BStackDeque.popFront a handle

def apply (ref : List UInt64) : DequeOp → Option UInt64 × List UInt64
  | pushBack value => (none, ref ++ [value])
  | pushFront value => (none, value :: ref)
  | popBack => (ref.getLast?, ref.dropLast)
  | popFront => (ref.head?, ref.tail)

def IsPush : DequeOp → Prop
  | pushBack _ => True
  | pushFront _ => True
  | popBack => False
  | popFront => False

end DequeOp

/-- How a push may fail when no I/O step does. A push whose rounds are spent has not returned in the source. -/
def PushError (e : IoError) : Prop := e = outOfSpace ∨ e = capacityOverflow ∨ e = neverEnds

/-- The list as a sequential object. A push that fails changes nothing. -/
def object : Object (List UInt64) DequeOp (Except IoError (Option UInt64)) where
  allows ref op out := out = .ok (op.apply ref).1 ∨ op.IsPush ∧ ∃ e, out = .error e ∧ PushError e
  next ref op out :=
    match out with
    | .ok _ => (op.apply ref).2
    | .error _ => ref

/-! ### Where a call stands -/

/-- Where a push stands, with the rounds it has left. -/
inductive Stage
  | loop (left : Nat)
  | growing (left : Nat)
  | reserving (left cap0 : Nat)
  | swapping (left cap0 : Nat) (spare : Range)
  | freeing (left : Nat) (old : Range)

namespace Stage

def code (a : Allocator) (handle : Nat) (plan : List Nat → Except IoError (Batch × Bool)) :
    Stage → Script IoError World Unit
  | loop left => pushLoop a handle plan (left + 1)
  | growing left => do
      grow a handle
      pushLoop a handle plan left
  | reserving left cap0 =>
      (do
        let spare ← .atom (alloc a (newcapOf cap0 * 8))
        growInto a handle spare.start (newcapOf cap0) (newcapOf cap0 * 8)) >>= fun _ => pushLoop a handle plan left
  | swapping left cap0 spare => do
      growInto a handle spare.start (newcapOf cap0) (newcapOf cap0 * 8)
      pushLoop a handle plan left
  | freeing left old => do
      let _ ← .attempt (.atom (deallocRange a old))
      pushLoop a handle plan left

def held : Stage → Multiset Range
  | swapping _ _ spare => {spare}
  | freeing _ old => {old}
  | _ => 0

def Fits : Stage → Prop
  | swapping _ cap0 spare => spare.len = newcapOf cap0 * 8
  | _ => True

end Stage

inductive Plans (handle : Nat) : DequeOp → (List Nat → Except IoError (Batch × Bool)) → Prop
  | back (value : UInt64) : Plans handle (.pushBack value) (backPlan handle value)
  | front (value : UInt64) : Plans handle (.pushFront value) (frontPlan handle value)

/-- What a call may have left to do, and the blocks it owns then. -/
inductive Rest (a : Allocator) (handle : Nat) : DequeOp → Script IoError World (Option UInt64) → Multiset Range → Prop
  | push {op : DequeOp} {plan : List Nat → Except IoError (Batch × Bool)} (hplan : Plans handle op plan) (s : Stage)
      (hs : s.Fits) : Rest a handle op (s.code a handle plan >>= fun _ => pure none) s.held
  | failed {op : DequeOp} {e : IoError} (hop : op.IsPush) (he : PushError e) : Rest a handle op (.done (.error e)) 0
  | popBack : Rest a handle .popBack (BStackDeque.popBack a handle) 0
  | popFront : Rest a handle .popFront (BStackDeque.popFront a handle) 0

def Ring.blocks (t : Ring) : Multiset Range := if 0 < t.cap then {⟨t.data, t.cap * 8⟩} else 0

def discipline (a : Allocator) (handle : Nat) : Discipline (List UInt64) DequeOp (Option UInt64) Deque Unit where
  Holds x _ f := Holds handle x f
  value := Deque.items
  blocks x := x.ring.blocks
  Drift _ _ := True
  Rest _ op c held _ φ := Rest a handle op c held ∧ φ = fun _ => True
  Astray _ _ := False

def noRoot : Root DequeOp := ⟨fun _ => 0, fun _ => False⟩

section Steps

variable {a : Allocator} {handle left cap0 : Nat} {w : World} {x x' : Deque} {op : DequeOp}
  {held held' : Multiset Range}
  {plan : List Nat → Except IoError (Batch × Bool)} {out : Except IoError (Option UInt64)} {spare old : Range}

theorem Plans.isPush (h : Plans handle op plan) : op.IsPush := by
  cases h with
  | back value => exact trivial
  | front value => exact trivial

theorem rest_loop (hplan : Plans handle op plan) (left : Nat) :
    Rest a handle op (pushLoop a handle plan left >>= fun _ => pure none) 0 := by
  cases left with
  | zero => exact .failed hplan.isPush (.inr (.inr rfl))
  | succ n => exact .push hplan (.loop n) trivial

/-- What the step lemmas say of a call of `op` that makes the step `c`. -/
def Stepped {β : Type} (a : Allocator) (handle : Nat) (w : World) (x : Deque) (op : DequeOp) (held : Multiset Range)
    (c : Io β) (next : Except IoError β → Script IoError World (Option UInt64)) : Prop :=
  ∃ x' held', (discipline a handle).After a.stack () w (c w).final x x' held held' () ∧
    (discipline a handle).Outcome object x x' op (next (c w).out) held' () fun _ => True

theorem goes_on {c : Script IoError World (Option UInt64)} (hitems : x'.items = x.items)
    (hrest : Rest a handle op c held') :
    (discipline a handle).Outcome object x x' op c held' () fun _ => True :=
  .further _ hitems ⟨hrest, rfl⟩ (.inl rfl)

theorem Stepped.commit {α : Type} {g : Gen (Batch × α)} {o : α}
    {next : Except IoError (Except IoError α) → Script IoError World (Option UInt64)} (hq : w.Quiet)
    (hc : Commits handle (w.files a.stack) g o x') (hblocks : x'.ring.blocks + held' = x.ring.blocks + held)
    (hout : (discipline a handle).Outcome object x x' op (next (.ok (.ok o))) held' () fun _ => True) :
    Stepped a handle w x op held (inplaceGen a.stack g) next := by
  obtain ⟨ws, heval, hin, hholds⟩ := hc
  have hrun := inplaceGen_run hq heval hin
  refine ⟨x', held', ?_, ?_⟩
  · rw [hrun]
    exact .commit hq hholds trivial hblocks
  · rw [hrun]
    exact hout

theorem loop_step (hq : w.Quiet) (hx : Holds handle x (w.files a.stack)) (hplan : Plans handle op plan) :
    Stepped a handle w x op 0 (inplaceGen a.stack (updateGen (ringReads handle) (fun _ => .ok []) fun v1 _ => plan v1))
      fun r => ((Script.done r >>= Script.lift) >>= fun placed =>
        (if placed then pure ()
        else do
          grow a handle
          pushLoop a handle plan left : Script IoError World Unit)) >>= fun _ => pure none := by
  by_cases hroom : x.ring.len < x.ring.cap
  · cases hplan with
    | back v => exact .commit hq (pushBack_commits hx hroom) rfl (.effect (.ok none) rfl rfl (.inl rfl) rfl)
    | front v => exact .commit hq (pushFront_commits hx hroom) rfl (.effect (.ok none) rfl rfl (.inl rfl) rfl)
  · have hfull : Commits handle (w.files a.stack)
        (updateGen (ringReads handle) (fun _ => .ok []) fun v1 _ => plan v1) false x := by
      cases hplan with
      | back v => exact full_commits hx hroom (.inl rfl)
      | front v => exact full_commits hx hroom (.inr rfl)
    exact .commit hq hfull rfl (goes_on rfl (.push hplan (.growing left) trivial))

theorem growing_step (hq : w.Quiet) (hx : Holds handle x (w.files a.stack)) (hplan : Plans handle op plan) :
    Stepped a handle w x op 0 (readU64 a.stack (handle + CAP_OFF)) fun r =>
      ((Script.done r >>= fun cap0 => do
          let newSize ← .lift (checkedMul (newcapOf cap0) 8 capacityOverflow)
          let newring ← .atom (alloc a newSize)
          growInto a handle newring.start (newcapOf cap0) newSize : Script IoError World Unit) >>= fun _ =>
        pushLoop a handle plan left) >>= fun _ => pure none := by
  have hin := hx.ring.handle_inside
  have hrun : readU64 a.stack (handle + CAP_OFF) w = _ := readU64_run hq (by simp only [CAP_OFF, HEADER_SIZE]; omega)
  refine ⟨x, 0, ?_, ?_⟩
  · rw [hrun]
    exact .idle hq rfl hx trivial rfl
  · rw [hrun, hx.ring.cap]
    by_cases hsize : newcapOf x.ring.cap * 8 < 2 ^ 64
    · have hmul : checkedMul (newcapOf x.ring.cap) 8 capacityOverflow = .ok (newcapOf x.ring.cap * 8) := if_pos hsize
      simp only [Script.done_ok_bind, Script.lift_bind, hmul]
      exact goes_on rfl (.push hplan (.reserving left x.ring.cap) trivial)
    · have hmul : checkedMul (newcapOf x.ring.cap) 8 capacityOverflow = .error capacityOverflow := if_neg hsize
      simp only [Script.done_ok_bind, Script.lift_bind, hmul]
      exact goes_on rfl (.failed hplan.isPush (.inr (.inl rfl)))

theorem reserving_step (hq : w.Quiet) (hx : Holds handle x (w.files a.stack)) (hplan : Plans handle op plan) :
    Stepped a handle w x op 0 (alloc a (newcapOf cap0 * 8)) fun r =>
      ((Script.done r >>= fun spare => growInto a handle spare.start (newcapOf cap0) (newcapOf cap0 * 8)) >>= fun _ =>
        pushLoop a handle plan left) >>= fun _ => pure none := by
  obtain ⟨w', hrun, hfiles, hquiet⟩ | ⟨r, hr, hlen, hrun⟩ := alloc_step a (newcapOf cap0 * 8) hq
  · refine ⟨x, 0, ?_, ?_⟩
    · rw [hrun]
      exact .idle hquiet (congrFun hfiles a.stack) hx trivial rfl
    · rw [hrun]
      exact goes_on rfl (.failed hplan.isPush (.inl rfl))
  · refine ⟨x, {r}, ?_, ?_⟩
    · have hblocks : x.ring.blocks + {r} = x.ring.blocks + 0 + {r} := by rw [add_zero]
      rw [hrun]
      refine .grant hq hr (hx.frame fun b hb => ?_) trivial hblocks
      have hlive : b ∈ (w.files a.stack).live := by
        rcases hb with rfl | ⟨hcap, rfl⟩
        · exact hx.ring.block
        · exact (hx.ring.array.resolve_left (by omega)).2
      refine ⟨List.mem_cons_of_mem r hlive, fun i hi hi' => ?_⟩
      rw [File.bytes_allocAt]
      cases (hr.2.2 b hlive).2 with
      | inl hle => exact Mem.write_of_lt (Nat.lt_of_lt_of_le hi' hle)
      | inr hge => exact Mem.write_of_ge (by rw [List.length_replicate]; exact Nat.le_trans hge hi)
    · rw [hrun]
      exact goes_on rfl (.push hplan (.swapping left cap0 r) hlen)

/-- A block that a call owns is none of the deque's. -/
theorem own_apart
    (hown : {⟨handle, DEQUE_SIZE⟩} + (x.ring.blocks + {old}) ≤ (↑(w.files a.stack).live : Multiset Range)) :
    old ∈ (w.files a.stack).live ∧ old ≠ ⟨handle, DEQUE_SIZE⟩ ∧
    (0 < x.ring.cap → old ≠ ⟨x.ring.data, x.ring.cap * 8⟩) := by
  have hnodup := Multiset.nodup_of_le hown (nodup_live a.stack w)
  rw [add_comm x.ring.blocks, ← add_assoc, add_comm {_}, add_assoc, Multiset.singleton_add,
    Multiset.nodup_cons, Multiset.singleton_add, Multiset.mem_cons, not_or] at hnodup
  refine ⟨Multiset.mem_coe.mp (Multiset.mem_of_le hown (by simp)), hnodup.1.1, fun hcap heq => hnodup.1.2 ?_⟩
  rw [Ring.blocks, if_pos hcap, heq]
  exact Multiset.mem_singleton_self _

/-- The spare block of a call is beside the deque. -/
theorem Holds.beside (hx : Holds handle x (w.files a.stack))
    (hown : {⟨handle, DEQUE_SIZE⟩} + (x.ring.blocks + {spare}) ≤ (↑(w.files a.stack).live : Multiset Range)) :
    Beside handle x spare (w.files a.stack) := by
  obtain ⟨hlive, hne, hring⟩ := own_apart hown
  refine ⟨hx, hlive, (apart_of_mem (w.files a.stack).apart hlive hx.ring.block hne).2, fun hcap => ?_⟩
  exact (apart_of_mem (w.files a.stack).apart hlive (hx.ring.array.resolve_left (by omega)).2 (hring hcap)).2

theorem swapping_step (hq : w.Quiet) (hx : Holds handle x (w.files a.stack)) (hplan : Plans handle op plan)
    (hlen : spare.len = newcapOf cap0 * 8)
    (hown : {⟨handle, DEQUE_SIZE⟩} + (x.ring.blocks + {spare}) ≤ (↑(w.files a.stack).live : Multiset Range)) :
    Stepped a handle w x op {spare} (inplaceGen a.stack (updateGen (ringReads handle) (growReads (newcapOf cap0))
        (growPlan handle spare.start (newcapOf cap0)))) fun r =>
      (((Script.done r >>= Script.lift) >>= afterGrow a spare.start (newcapOf cap0 * 8)) >>= fun _ =>
        pushLoop a handle plan left) >>= fun _ => pure none := by
  have hspare : (⟨spare.start, newcapOf cap0 * 8⟩ : Range) = spare := by rw [← hlen]
  by_cases habort : Abort (newcapOf cap0) x.ring
  · refine .commit hq (abort_commits hx habort) rfl (goes_on rfl ?_)
    have hrest : Rest a handle op ((Stage.freeing left spare).code a handle plan >>= fun _ => pure none) {spare} :=
      .push hplan (.freeing left spare) trivial
    rw [← hspare] at hrest
    exact hspare ▸ hrest
  · have hcap : x.ring.cap < newcapOf cap0 := Nat.not_le.mp fun hle => habort (.inr hle)
    have hbeside := hx.beside hown
    have hblocks : (x.moved spare.start (newcapOf cap0)).ring.blocks = {spare} := by
      show (if 0 < newcapOf cap0 then ({⟨spare.start, newcapOf cap0 * 8⟩} : Multiset Range) else 0) = {spare}
      rw [if_pos (by omega), hspare]
    have hcommit := grow_commits hbeside hlen habort
    by_cases hzero : 0 < x.ring.cap
    · have hold : x.ring.blocks = {⟨x.ring.data, x.ring.cap * 8⟩} := if_pos hzero
      have hmin : min (x.ring.cap * 8) (2 ^ 64 - 1) = x.ring.cap * 8 := by
        have hlt := hx.ring.cap_lt
        omega
      have hswap : (x.moved spare.start (newcapOf cap0)).ring.blocks + {⟨x.ring.data, x.ring.cap * 8⟩} =
          x.ring.blocks + {spare} := by rw [hblocks, hold, add_comm]
      refine .commit hq hcommit hswap (goes_on rfl ?_)
      simp only [Script.done_ok_bind, Script.lift_bind, afterGrow, if_pos hzero, hmin]
      exact .push hplan (.freeing left ⟨x.ring.data, x.ring.cap * 8⟩) trivial
    · have hold : x.ring.blocks = 0 := if_neg hzero
      have hswap : (x.moved spare.start (newcapOf cap0)).ring.blocks + 0 = x.ring.blocks + {spare} := by
        rw [hblocks, hold, add_comm]
      refine .commit hq hcommit hswap (goes_on rfl ?_)
      simp only [Script.done_ok_bind, Script.lift_bind, afterGrow, if_neg hzero]
      exact rest_loop hplan left

theorem freeing_step (hq : w.Quiet) (hx : Holds handle x (w.files a.stack)) (hplan : Plans handle op plan)
    (hown : {⟨handle, DEQUE_SIZE⟩} + (x.ring.blocks + {old}) ≤ (↑(w.files a.stack).live : Multiset Range)) :
    Stepped a handle w x op {old} (deallocRange a old) fun r =>
      (Script.done (.ok r) >>= fun _ => pushLoop a handle plan left : Script IoError World Unit) >>= fun _ =>
        pure none := by
  obtain ⟨hlive, hne, hring⟩ := own_apart hown
  have hrun := deallocRange_run hq hlive
  have hblocks : x.ring.blocks + 0 + {old} = x.ring.blocks + {old} := by rw [add_zero]
  refine ⟨x, 0, ?_, ?_⟩
  · rw [hrun]
    refine .release hq hlive (hx.frame fun b hb => ?_) trivial hblocks
    have hkept : b ∈ (w.files a.stack).live ∧ b ≠ old := by
      rcases hb with rfl | ⟨hcap, rfl⟩
      · exact ⟨hx.ring.block, hne.symm⟩
      · exact ⟨(hx.ring.array.resolve_left (by omega)).2, (hring hcap).symm⟩
    exact ⟨(List.mem_erase_of_ne hkept.2).mpr hkept.1, fun _ _ _ => rfl⟩
  · rw [hrun]
    exact goes_on rfl (rest_loop hplan left)

theorem popBack_step (hq : w.Quiet) (hx : Holds handle x (w.files a.stack)) {β : Type} {c : Io β}
    {next : Except IoError β → Script IoError World (Option UInt64)}
    (hcode : Script.step c next = BStackDeque.popBack a handle) : Stepped a handle w x .popBack 0 c next := by
  obtain ⟨plan, x', hplan, hitems, hdata, hcap, hcommit⟩ := popBack_commits hx a
  rw [hplan] at hcode
  cases hcode
  have hblocks : x'.ring.blocks + 0 = x.ring.blocks + 0 := by rw [Ring.blocks, Ring.blocks, hdata, hcap]
  exact .commit hq hcommit hblocks (.effect (.ok x.items.getLast?) rfl rfl (.inl rfl) hitems.symm)

theorem popFront_step (hq : w.Quiet) (hx : Holds handle x (w.files a.stack)) {β : Type} {c : Io β}
    {next : Except IoError β → Script IoError World (Option UInt64)}
    (hcode : Script.step c next = BStackDeque.popFront a handle) : Stepped a handle w x .popFront 0 c next := by
  obtain ⟨plan, x', hplan, hitems, hdata, hcap, hcommit⟩ := popFront_commits hx a
  rw [hplan] at hcode
  cases hcode
  have hblocks : x'.ring.blocks + 0 = x.ring.blocks + 0 := by rw [Ring.blocks, Ring.blocks, hdata, hcap]
  exact .commit hq hcommit hblocks (.effect (.ok x.items.head?) rfl rfl (.inl rfl) hitems.symm)

end Steps

/-! ### The discipline -/

theorem rest_start (a : Allocator) (handle attempts : Nat) (op : DequeOp) :
    Rest a handle op (op.code a handle attempts) 0 := by
  cases op with
  | pushBack v => exact rest_loop (.back v) attempts
  | pushFront v => exact rest_loop (.front v) attempts
  | popBack => exact .popBack
  | popFront => exact .popFront

/-- A call that has answered has failed as it may. -/
theorem Rest.finish {a : Allocator} {handle : Nat} {op : DequeOp} {out : Except IoError (Option UInt64)}
    {held : Multiset Range} (h : Rest a handle op (.done out) held) :
    held = 0 ∧ ∀ ref, object.allows ref op out ∧ object.next ref op out = ref := by
  generalize hcode : Script.done out = code at h
  cases h with
  | push hplan s hs => cases s <;> cases hcode
  | failed hop he =>
      cases hcode
      exact ⟨rfl, fun ref => ⟨.inr ⟨hop, _, rfl, he⟩, rfl⟩⟩
  | popBack => cases hcode
  | popFront => cases hcode

theorem sound (a : Allocator) (handle : Nat) :
    (discipline a handle).Sound a.stack {⟨handle, DEQUE_SIZE⟩} (DequeOp.code a handle) object noRoot where
  waste h := h
  frame := by
    intro x g f f' hx hkeep
    refine Holds.frame hx fun r hr => ?_
    rcases hr with rfl | ⟨hcap, rfl⟩
    · exact hkeep _ (Multiset.mem_add.mpr (.inl (Multiset.mem_singleton_self _))) hx.ring.block
    · refine hkeep _ (Multiset.mem_add.mpr (.inr ?_)) (hx.ring.array.resolve_left (by omega)).2
      show _ ∈ x.ring.blocks
      rw [Ring.blocks, if_pos hcap]
      exact Multiset.mem_singleton_self _
  start x attempts op := ⟨_, ⟨rest_start a handle attempts op, rfl⟩, trivial⟩
  drift _ _ _ h := .inl ⟨_, h, .inl rfl⟩
  step := by
    intro β w x g tokens op held φ c next hq hx hown ⟨hrest, hφ⟩
    have hstep : Stepped a handle w x op held c next := by
      generalize hcode : Script.step c next = code at hrest
      cases hrest with
      | push hplan s hs =>
          cases s with
          | loop left =>
              cases hcode
              exact loop_step hq hx hplan
          | growing left =>
              cases hcode
              exact growing_step hq hx hplan
          | reserving left cap0 =>
              cases hcode
              exact reserving_step hq hx hplan
          | swapping left cap0 spare =>
              cases hcode
              exact swapping_step hq hx hplan hs hown
          | freeing left old =>
              cases hcode
              exact freeing_step hq hx hplan hown
      | failed hop he => cases hcode
      | popBack => exact popBack_step hq hx hcode
      | popFront => exact popFront_step hq hx hcode
    obtain ⟨x', held', hafter, hout⟩ := hstep
    exact ⟨x', held', (), hafter, hφ ▸ hout⟩
  finish h := ⟨h.1.finish.1, fun ref _ => h.1.finish.2 ref⟩
  wander _ h := h.elim

end BStackDeque

end BStackRaii
