import BStackRaii.Proof.Rc.Calls
import Mathlib.Logic.Relation
import Mathlib.Algebra.BigOperators.Group.Multiset.Basic
/-!
# The reference-count protocol

The invariant of a shared object: every call in flight stands at a program counter, and the file
agrees with what the handles and the calls hold together. Every step keeps it, so it holds in every
reachable state, whatever the interleaving and however many handles there are.
-/

namespace BStackRaii

def Sharing.handles (s : Sharing) : Ledger := ⟨s.strong.card, 0, s.weak.card, 0, s.moved⟩

def holdings (pcs : Multiset (Option Nat × Pc)) : Ledger := (pcs.map fun p => p.2.share).sum

@[simp] theorem holdings_zero : holdings 0 = 0 := rfl

@[simp] theorem holdings_cons (p : Option Nat × Pc) (pcs : Multiset (Option Nat × Pc)) :
    holdings (p ::ₘ pcs) = p.2.share + holdings pcs := by
  simp only [holdings, Multiset.map_cons, Multiset.sum_cons]

def callsAt (a : Allocator) (o : BStackRc) (pcs : Multiset (Option Nat × Pc)) : Multiset Call :=
  pcs.map fun p => ⟨p.1, p.2.code a o⟩

@[simp] theorem callsAt_cons (a : Allocator) (o : BStackRc) (p : Option Nat × Pc)
    (pcs : Multiset (Option Nat × Pc)) :
    callsAt a o (p ::ₘ pcs) = ⟨p.1, p.2.code a o⟩ ::ₘ callsAt a o pcs := Multiset.map_cons ..

/-- The invariant. -/
structure Counted (a : Allocator) (o : BStackRc) (s : Sharing)
    (pcs : Multiset (Option Nat × Pc)) : Prop where
  agrees : Agrees a o (s.handles + holdings pcs) s.freed s.world
  calls : s.calls = callsAt a o pcs
  strong : ∀ p ∈ s.strong, p.2 = o
  weak : ∀ p ∈ s.weak, p.2 = ⟨o.ctrl⟩
  sound : ∀ p ∈ pcs, p.2.Sound o
  lent_strong : ∀ p ∈ pcs, p.2.BorrowsStrong → ∃ id, p.1 = some id ∧ (id, o) ∈ s.strong
  lent_weak : ∀ p ∈ pcs, p.2.BorrowsWeak → ∃ id, p.1 = some id ∧ (id, ⟨o.ctrl⟩) ∈ s.weak

variable {a : Allocator} {o : BStackRc} {s s' : Sharing} {pcs : Multiset (Option Nat × Pc)}

theorem Created.wellFormed (h : Created a o s) : WellFormed o where
  distinct := h.distinct
  size := h.size
  placed := Nat.lt_of_lt_of_le (by decide) ((s.world.files a.stack).inside _ h.ctrl).1
  addressable := by
    have hstop := ((s.world.files a.stack).inside _ h.ctrl).2
    rw [Range.stop, h.size] at hstop
    exact Nat.lt_of_le_of_lt hstop (s.world.files a.stack).addressable

theorem Created.counted (h : Created a o s) : Counted a o s 0 where
  agrees := by
    have hledger : s.handles + holdings 0 = ⟨1, 0, 0, 0, 0⟩ := by
      simp [Sharing.handles, h.handle, h.no_weak, h.none_moved]
    rw [hledger, h.none_freed]
    exact {
      quiet := h.quiet
      data_freed := rfl
      ctrl_freed := rfl
      data_live := fun _ => h.data
      ctrl_live := fun _ => h.ctrl
      strong := fun _ => h.strong_one
      weak := fun _ => h.weak_one
      forward := fun _ => h.forward
      moved := Nat.le_refl 0 }
  calls := h.idle
  strong := by
    intro p hp
    rw [h.handle, Finset.mem_singleton] at hp
    rw [hp]
  weak := by
    intro p hp
    rw [h.no_weak] at hp
    exact (Finset.notMem_empty p hp).elim
  sound := fun p hp => (Multiset.notMem_zero p hp).elim
  lent_strong := fun p hp => (Multiset.notMem_zero p hp).elim
  lent_weak := fun p hp => (Multiset.notMem_zero p hp).elim

/-- The program counter of a call that is in flight. -/
theorem Counted.split (h : Counted a o s pcs) {t : Call} {rest : Multiset Call}
    (hcalls : s.calls = t ::ₘ rest) :
    ∃ p pcs', pcs = p ::ₘ pcs' ∧ t = ⟨p.1, p.2.code a o⟩ ∧
      rest = callsAt a o pcs' := by
  have hmem : t ∈ callsAt a o pcs := by
    rw [← h.calls, hcalls]
    exact Multiset.mem_cons_self t rest
  obtain ⟨p, hp, rfl⟩ := Multiset.mem_map.mp hmem
  obtain ⟨pcs', rfl⟩ := Multiset.exists_cons_of_mem hp
  refine ⟨p, pcs', rfl, rfl, ?_⟩
  have hmap := hcalls.symm.trans h.calls
  rw [callsAt_cons] at hmap
  exact (Multiset.cons_inj_right _).mp hmap

/-! ### One lemma for each kind of step -/

def RcOp.pc : RcOp → Pc
  | .tryClone => .cloneStrong
  | .downgrade => .downgrade
  | .drop => .dropStrong
  | .tryMove => .tryMove

def WeakOp.pc : WeakOp → Pc
  | .tryClone => .cloneWeak
  | .upgrade => .upgradeLoad
  | .drop => .dropWeak .nothing

theorem RcOp.code_eq (hwf : WellFormed o) (op : RcOp) : op.code a o = op.pc.code a o := by
  cases op with
  | tryClone => exact tryClone_code hwf
  | downgrade => exact downgrade_code hwf
  | drop => exact drop_code hwf
  | tryMove => exact tryMove_code hwf

theorem WeakOp.code_eq (hwf : WellFormed o) (op : WeakOp) :
    op.code a o.data.len ⟨o.ctrl⟩ = op.pc.code a o := by
  cases op with
  | tryClone => exact weakTryClone_code hwf
  | upgrade => exact upgrade_code hwf
  | drop => exact weakDrop_code hwf

theorem callStrong_ledger (op : RcOp) {id : Nat} {h : BStackRc} (hmem : (id, h) ∈ s.strong) (L : Ledger) :
    (⟨(if op.borrows then s.strong else s.strong.erase (id, h)).card, 0, s.weak.card, 0, s.moved⟩ : Ledger) +
      (op.pc.share + L) = s.handles + L := by
  have hpos := Finset.card_pos.mpr ⟨_, hmem⟩
  have herase := Finset.card_erase_of_mem hmem
  cases op <;> ext <;> simp [RcOp.borrows, RcOp.pc, Pc.share, Sharing.handles, herase]
  all_goals omega

theorem callWeak_ledger (op : WeakOp) {id : Nat} {h : BStackWeak} (hmem : (id, h) ∈ s.weak) (L : Ledger) :
    (⟨s.strong.card, 0, (if op.borrows then s.weak else s.weak.erase (id, h)).card, 0, s.moved⟩ : Ledger) +
      (op.pc.share + L) = s.handles + L := by
  have hpos := Finset.card_pos.mpr ⟨_, hmem⟩
  have herase := Finset.card_erase_of_mem hmem
  cases op <;> ext <;> simp [WeakOp.borrows, WeakOp.pc, Pc.share, Pc.fieldsOf, Sharing.handles, herase]
  all_goals omega

theorem mem_consume {H : Type} [DecidableEq H] {handles : Finset (Nat × H)} {b : Bool} {id j : Nat}
    {h g : H} (hg : (j, g) ∈ handles) (hne : b = false → j ≠ id) :
    (j, g) ∈ if b then handles else handles.erase (id, h) := by
  cases b with
  | true => exact hg
  | false => exact Finset.mem_erase.mpr ⟨fun heq => hne rfl (congrArg Prod.fst heq), hg⟩

theorem mem_of_consume {H : Type} [DecidableEq H] {handles : Finset (Nat × H)} {b : Bool}
    {p q : Nat × H} (hp : p ∈ if b then handles else handles.erase q) : p ∈ handles := by
  cases b with
  | true => exact hp
  | false => exact Finset.mem_of_mem_erase hp

theorem Counted.not_lent (hc : Counted a o s pcs) {b : Bool} {id j : Nat}
    (hfree : b = false → ¬ s.Borrowed id) {p : Option Nat × Pc} (hp : p ∈ pcs) (hj : p.1 = some j) :
    b = false → j ≠ id := by
  intro hb heq
  apply hfree hb
  refine ⟨⟨p.1, p.2.code a o⟩, ?_, by rw [hj, heq]⟩
  rw [hc.calls]
  exact Multiset.mem_map_of_mem (fun p => (⟨p.1, p.2.code a o⟩ : Call)) hp

theorem Counted.callStrong (hwf : WellFormed o) (hc : Counted a o s pcs) (op : RcOp) (id : Nat)
    (h : BStackRc) (hmem : (id, h) ∈ s.strong) (hfree : op.borrows = false → ¬ s.Borrowed id) :
    Counted a o { s with
      strong := if op.borrows then s.strong else s.strong.erase (id, h)
      calls := ⟨if op.borrows then some id else none, op.code a h⟩ ::ₘ s.calls }
      ((if op.borrows then some id else none, op.pc) ::ₘ pcs) where
  agrees := by
    rw [holdings_cons]
    exact (callStrong_ledger op hmem (holdings pcs)).symm ▸ hc.agrees
  calls := by
    obtain rfl : h = o := hc.strong _ hmem
    rw [callsAt_cons, ← hc.calls, op.code_eq hwf]
  strong := fun p hp => hc.strong p (mem_of_consume hp)
  weak := hc.weak
  sound := by
    intro p hp
    rcases Multiset.mem_cons.mp hp with rfl | hp
    · cases op <;> exact trivial
    · exact hc.sound p hp
  lent_strong := by
    intro p hp hborrows
    obtain rfl : h = o := hc.strong _ hmem
    rcases Multiset.mem_cons.mp hp with rfl | hp
    · cases op
      case tryClone => exact ⟨id, rfl, hmem⟩
      case downgrade => exact ⟨id, rfl, hmem⟩
      case drop => exact hborrows.elim
      case tryMove => exact hborrows.elim
    · obtain ⟨j, hj, hin⟩ := hc.lent_strong p hp hborrows
      exact ⟨j, hj, mem_consume hin (hc.not_lent hfree hp hj)⟩
  lent_weak := by
    intro p hp hborrows
    rcases Multiset.mem_cons.mp hp with rfl | hp
    · cases op <;> exact hborrows.elim
    · exact hc.lent_weak p hp hborrows

theorem Counted.callWeak (hwf : WellFormed o) (hc : Counted a o s pcs) (op : WeakOp) (id : Nat)
    (h : BStackWeak) (hmem : (id, h) ∈ s.weak) (hfree : op.borrows = false → ¬ s.Borrowed id) :
    Counted a o { s with
      weak := if op.borrows then s.weak else s.weak.erase (id, h)
      calls := ⟨if op.borrows then some id else none, op.code a o.data.len h⟩ ::ₘ s.calls }
      ((if op.borrows then some id else none, op.pc) ::ₘ pcs) where
  agrees := by
    rw [holdings_cons]
    exact (callWeak_ledger op hmem (holdings pcs)).symm ▸ hc.agrees
  calls := by
    obtain rfl : h = ⟨o.ctrl⟩ := hc.weak _ hmem
    rw [callsAt_cons, ← hc.calls, op.code_eq hwf]
  strong := hc.strong
  weak := fun p hp => hc.weak p (mem_of_consume hp)
  sound := by
    intro p hp
    rcases Multiset.mem_cons.mp hp with rfl | hp
    · cases op
      case drop => exact .inl rfl
      all_goals exact trivial
    · exact hc.sound p hp
  lent_strong := by
    intro p hp hborrows
    rcases Multiset.mem_cons.mp hp with rfl | hp
    · cases op <;> exact hborrows.elim
    · exact hc.lent_strong p hp hborrows
  lent_weak := by
    intro p hp hborrows
    obtain rfl : h = ⟨o.ctrl⟩ := hc.weak _ hmem
    rcases Multiset.mem_cons.mp hp with rfl | hp
    · cases op
      case tryClone => exact ⟨id, rfl, hmem⟩
      case upgrade => exact ⟨id, rfl, hmem⟩
      case drop => exact hborrows.elim
    · obtain ⟨j, hj, hin⟩ := hc.lent_weak p hp hborrows
      exact ⟨j, hj, mem_consume hin (hc.not_lent hfree hp hj)⟩

/-- The step of one call, seen by the ledger of all of them. -/
theorem Counted.moves (hwf : WellFormed o) {p : Option Nat × Pc} (hc : Counted a o s (p ::ₘ pcs))
    {β : Type} {c : Io β} {k : Except IoError β → Script IoError World Returned}
    (hcode : p.2.code a o = .step c k) :
    ∃ pc', p.2.Moves a o (s.handles + holdings pcs) s.freed s.world pc' c k := by
  have hmem := Multiset.mem_cons_self p pcs
  apply Pc.advance hwf p.2 (hc.sound p hmem) _ _ _ hcode
  · have hA := hc.agrees
    rwa [holdings_cons, add_left_comm] at hA
  · intro hborrows
    obtain ⟨id, -, hin⟩ := hc.lent_strong p hmem hborrows
    exact Nat.add_pos_left (Finset.card_pos.mpr ⟨_, hin⟩) _
  · intro hborrows
    obtain ⟨id, -, hin⟩ := hc.lent_weak p hmem hborrows
    exact Nat.add_pos_left (Finset.card_pos.mpr ⟨_, hin⟩) _

theorem Counted.atomic {p : Option Nat × Pc} (hc : Counted a o s (p ::ₘ pcs)) {β : Type} {c : Io β}
    {k : Except IoError β → Script IoError World Returned} {pc' : Pc}
    (hmoves : p.2.Moves a o (s.handles + holdings pcs) s.freed s.world pc' c k) :
    Counted a o { s with
      world := (c s.world).final
      calls := ⟨p.1, k (c s.world).out⟩ ::ₘ callsAt a o pcs
      freed := s.freed ++ newlyFreed s.world (c s.world).final } ((p.1, pc') ::ₘ pcs) where
  agrees := by
    rw [holdings_cons, add_left_comm]
    exact hmoves.agrees
  calls := by
    rw [callsAt_cons, hmoves.code]
  strong := hc.strong
  weak := hc.weak
  sound := by
    intro q hq
    rcases Multiset.mem_cons.mp hq with rfl | hq
    · exact hmoves.sound
    · exact hc.sound q (Multiset.mem_cons_of_mem hq)
  lent_strong := by
    intro q hq hborrows
    rcases Multiset.mem_cons.mp hq with rfl | hq
    · exact hc.lent_strong p (Multiset.mem_cons_self p pcs) (hmoves.strong hborrows)
    · exact hc.lent_strong q (Multiset.mem_cons_of_mem hq) hborrows
  lent_weak := by
    intro q hq hborrows
    rcases Multiset.mem_cons.mp hq with rfl | hq
    · exact hc.lent_weak p (Multiset.mem_cons_self p pcs) (hmoves.weak hborrows)
    · exact hc.lent_weak q (Multiset.mem_cons_of_mem hq) hborrows

theorem Pc.code_done {pc : Pc} {out : Except IoError Returned} (h : pc.code a o = .done out) :
    pc = .done out := by
  cases pc <;> cases h
  rfl

/-- What a call hands back is a handle from then on. -/
theorem Counted.returns {p : Option Nat × Pc} {out : Except IoError Returned}
    (hc : Counted a o s (p ::ₘ pcs)) (hp : p.2 = .done out) {id : Nat} (hid : s.Unused id) :
    Counted a o ({ s with calls := callsAt a o pcs }.deliver id out) pcs := by
  have hsound := hc.sound p (Multiset.mem_cons_self p pcs)
  have hA := hc.agrees
  rw [holdings_cons, ← add_assoc, hp] at hA
  rw [hp] at hsound
  have hsound' := fun q hq => hc.sound q (Multiset.mem_cons_of_mem hq)
  have hstrong' := fun q hq => hc.lent_strong q (Multiset.mem_cons_of_mem hq)
  have hweak' := fun q hq => hc.lent_weak q (Multiset.mem_cons_of_mem hq)
  rcases out with e | h | h | _ | _
  · exact ⟨hA, rfl, hc.strong, hc.weak, hsound', hstrong', hweak'⟩
  · obtain rfl : h = o := hsound
    refine ⟨?_, rfl, ?_, hc.weak, hsound', ?_, hweak'⟩
    · have hledger : (Sharing.deliver { s with calls := callsAt a h pcs } id
          (.ok (.strong h))).handles = s.handles + (Pc.done (.ok (.strong h))).share := by
        ext <;> simp [Sharing.handles, Sharing.deliver, Pc.share, Finset.card_insert_of_notMem (hid.1 h)]
      rw [hledger]
      exact hA
    · intro q hq
      rcases Finset.mem_insert.mp hq with rfl | hq
      · rfl
      · exact hc.strong q hq
    · intro q hq hborrows
      obtain ⟨j, hj, hin⟩ := hstrong' q hq hborrows
      exact ⟨j, hj, Finset.mem_insert_of_mem hin⟩
  · obtain rfl : h = ⟨o.ctrl⟩ := hsound
    refine ⟨?_, rfl, hc.strong, ?_, hsound', hstrong', ?_⟩
    · have hledger : (Sharing.deliver { s with calls := callsAt a o pcs } id
          (.ok (.weak ⟨o.ctrl⟩))).handles = s.handles + (Pc.done (.ok (.weak ⟨o.ctrl⟩))).share := by
        ext <;> simp [Sharing.handles, Sharing.deliver, Pc.share,
          Finset.card_insert_of_notMem (hid.2 ⟨o.ctrl⟩)]
      rw [hledger]
      exact hA
    · intro q hq
      rcases Finset.mem_insert.mp hq with rfl | hq
      · rfl
      · exact hc.weak q hq
    · intro q hq hborrows
      obtain ⟨j, hj, hin⟩ := hweak' q hq hborrows
      exact ⟨j, hj, Finset.mem_insert_of_mem hin⟩
  · exact ⟨hA, rfl, hc.strong, hc.weak, hsound', hstrong', hweak'⟩
  · exact ⟨hA, rfl, hc.strong, hc.weak, hsound', hstrong', hweak'⟩

/-- The step lemma of the protocol. -/
theorem Counted.step (hwf : WellFormed o) (hc : Counted a o s pcs) (h : Step a o s s') :
    ∃ pcs', Counted a o s' pcs' := by
  cases h with
  | callStrong op id h hmem hfree => exact ⟨_, hc.callStrong hwf op id h hmem hfree⟩
  | callWeak op id h hmem hfree => exact ⟨_, hc.callWeak hwf op id h hmem hfree⟩
  | atomic lent c k rest hcalls =>
      obtain ⟨p, pcs, rfl, ht, rfl⟩ := hc.split hcalls
      obtain ⟨rfl, hcode⟩ := Call.mk.inj ht
      obtain ⟨pc', hmoves⟩ := hc.moves hwf hcode.symm
      exact ⟨_, hc.atomic hmoves⟩
  | returns lent out rest hcalls id hid =>
      obtain ⟨p, pcs, rfl, ht, rfl⟩ := hc.split hcalls
      obtain ⟨rfl, hcode⟩ := Call.mk.inj ht
      exact ⟨pcs, hc.returns (Pc.code_done hcode.symm) hid⟩
  | elsewhere w h =>
      have hA := Agrees.elsewhere hwf hc.agrees h
      exact ⟨pcs, hA, hc.calls, hc.strong, hc.weak, hc.sound, hc.lent_strong,
        hc.lent_weak⟩

/-- The run lemma of the protocol. -/
theorem Created.reaches {s₀ : Sharing} (h : Created a o s₀)
    (hrun : Relation.ReflTransGen (Step a o) s₀ s) : ∃ pcs, Counted a o s pcs := by
  induction hrun with
  | refl => exact ⟨0, h.counted⟩
  | tail _ hstep ih =>
      obtain ⟨pcs, hc⟩ := ih
      exact hc.step h.wellFormed hstep

/-! ### What the counters promise -/

def Sharing.strongCount (a : Allocator) (o : BStackRc) (s : Sharing) : Nat :=
  (s.world.files a.stack).bytes.word (o.ctrl.start + CTRL_STRONG_OFFSET)

def Sharing.weakCount (a : Allocator) (o : BStackRc) (s : Sharing) : Nat :=
  (s.world.files a.stack).bytes.word (o.ctrl.start + CTRL_WEAK_OFFSET)

def Sharing.DataFreed (a : Allocator) (o : BStackRc) (s : Sharing) : Prop :=
  (a.stack, o.data) ∈ s.freed

def Sharing.CtrlFreed (a : Allocator) (o : BStackRc) (s : Sharing) : Prop :=
  (a.stack, o.ctrl) ∈ s.freed

/-- The call is about to free the data block, or about to read it in order to free it. -/
def Call.FreesData (a : Allocator) (o : BStackRc) (t : Call) : Prop :=
  (∃ k, t.code = .step (deallocRange a o.data) k) ∨
    ∃ k, t.code = .step (getInto a.stack o.data.start o.data.len) k

def Call.FreesCtrl (a : Allocator) (o : BStackRc) (t : Call) : Prop :=
  ∃ k, t.code = .step (deallocRange a o.ctrl) k

/-- The promises of the protocol in one state. -/
structure Balanced (a : Allocator) (o : BStackRc) (s : Sharing) : Prop where
  /-- With no call in flight, the counters count the handles, -/
  idle_strong : s.calls = 0 → ¬ s.CtrlFreed a o → s.strongCount a o = s.strong.card
  idle_weak : s.calls = 0 → ¬ s.CtrlFreed a o →
    s.weakCount a o = s.weak.card + if 0 < s.strong.card then 1 else 0
  /-- and exactly the blocks nobody names any more are freed. -/
  idle_data : s.calls = 0 → s.freed.count (a.stack, o.data) = if s.strong.card = 0 then 1 else 0
  idle_ctrl : s.calls = 0 →
    s.freed.count (a.stack, o.ctrl) = if s.strong.card + s.weak.card = 0 then 1 else 0
  /-- At any moment, the data block is freed or moved out at most once, -/
  data_once : s.freed.count (a.stack, o.data) ≤ 1
  moved_once : s.moved ≤ s.freed.count (a.stack, o.data)
  /-- never while the strong counter is positive, and a call is at it once the counter is zero; -/
  data_zero : ¬ s.CtrlFreed a o → s.DataFreed a o → s.strongCount a o = 0
  data_pending : ¬ s.CtrlFreed a o → s.strongCount a o = 0 → s.DataFreed a o ∨
    ∃ t ∈ s.calls, t.FreesData a o
  /-- likewise the control block, after which no call has a step left; -/
  ctrl_once : s.freed.count (a.stack, o.ctrl) ≤ 1
  ctrl_pending : ¬ s.CtrlFreed a o → s.weakCount a o = 0 → ∃ t ∈ s.calls, t.FreesCtrl a o
  ctrl_last : s.CtrlFreed a o → s.strong = ∅ ∧ s.weak = ∅ ∧ ∀ t ∈ s.calls, ∃ out, t.code = .done out
  /-- strong handles, also those an upgrade is about to return, name the allocated data block; -/
  alive : ∀ p ∈ s.strong, p.2 = o ∧ ¬ s.DataFreed a o ∧ o.data ∈ (s.world.files a.stack).live
  returned : ∀ t ∈ s.calls, ∀ h, t.code = .done (.ok (.strong h)) →
    h = o ∧ ¬ s.DataFreed a o ∧ o.data ∈ (s.world.files a.stack).live
  /-- and no call fails for an underflow. -/
  no_underflow : ∀ t ∈ s.calls, ∀ e, t.code = .done (.error e) → e = Refcount.overflowErr

/-- The promises of the protocol about one step: each block goes when its counter is zero. -/
structure FreesAtZero (a : Allocator) (o : BStackRc) (s s' : Sharing) : Prop where
  data : ¬ s.DataFreed a o → s'.DataFreed a o → s.strongCount a o = 0
  ctrl : ¬ s.CtrlFreed a o → s'.CtrlFreed a o → s.weakCount a o = 0

section Promises

theorem exists_last (h : 0 < (holdings pcs).last) : ∃ p ∈ pcs, 0 < p.2.share.last := by
  induction pcs using Multiset.induction with
  | empty => exact absurd h (Nat.lt_irrefl 0)
  | cons p pcs ih =>
      by_cases hp : 0 < p.2.share.last
      · exact ⟨p, Multiset.mem_cons_self p pcs, hp⟩
      · rw [holdings_cons, Ledger.last_add] at h
        obtain ⟨q, hq, hlast⟩ := ih (by omega)
        exact ⟨q, Multiset.mem_cons_of_mem hq, hlast⟩

theorem exists_closing (h : 0 < (holdings pcs).closing) : ∃ p ∈ pcs, 0 < p.2.share.closing := by
  induction pcs using Multiset.induction with
  | empty => exact absurd h (Nat.lt_irrefl 0)
  | cons p pcs ih =>
      by_cases hp : 0 < p.2.share.closing
      · exact ⟨p, Multiset.mem_cons_self p pcs, hp⟩
      · rw [holdings_cons, Ledger.closing_add] at h
        obtain ⟨q, hq, hclosing⟩ := ih (by omega)
        exact ⟨q, Multiset.mem_cons_of_mem hq, hclosing⟩

theorem Pc.freesData_of_last {pc : Pc} (h : 0 < pc.share.last) (lent : Option Nat) :
    Call.FreesData a o ⟨lent, pc.code a o⟩ := by
  cases pc with
  | freeData => exact .inl ⟨_, rfl⟩
  | moveRead => exact .inr ⟨_, rfl⟩
  | moveFree => exact .inl ⟨_, rfl⟩
  | done out => rcases out with e | h' | h' | _ | _ <;> exact absurd h (Nat.lt_irrefl 0)
  | _ => exact absurd h (Nat.lt_irrefl 0)

theorem Pc.freesCtrl_of_closing {pc : Pc} (h : 0 < pc.share.closing) (lent : Option Nat) :
    Call.FreesCtrl a o ⟨lent, pc.code a o⟩ := by
  cases pc with
  | freeCtrl r => exact ⟨_, rfl⟩
  | done out => rcases out with e | h' | h' | _ | _ <;> exact absurd h (Nat.lt_irrefl 0)
  | _ => exact absurd h (Nat.lt_irrefl 0)

variable (hc : Counted a o s pcs)
include hc

theorem Counted.keep_pos (h : ¬ s.CtrlFreed a o) : 0 < (s.handles + holdings pcs).keep := by
  have hcount := hc.agrees.ctrl_freed
  rw [List.count_eq_zero.mpr h] at hcount
  omega

theorem Counted.strongCount_eq (h : ¬ s.CtrlFreed a o) :
    s.strongCount a o = (s.handles + holdings pcs).strong := hc.agrees.strong (hc.keep_pos h)

theorem Counted.weakCount_eq (h : ¬ s.CtrlFreed a o) :
    s.weakCount a o = (s.handles + holdings pcs).watchers := hc.agrees.weak (hc.keep_pos h)

/-- While somebody holds a strong count, the data block is there. -/
theorem Counted.data_there (h : 0 < (s.handles + holdings pcs).strong) :
    ¬ s.DataFreed a o ∧ o.data ∈ (s.world.files a.stack).live := by
  have hphantom := Ledger.phantom_of_strong h
  have hcount := hc.agrees.data_freed
  exact ⟨List.count_eq_zero.mp (by omega), hc.agrees.data_live (by omega)⟩

theorem Counted.idle (h : s.calls = 0) : pcs = 0 := by
  have hcalls := hc.calls.symm.trans h
  exact Multiset.map_eq_zero.mp hcalls

theorem Counted.at_call {t : Call} (ht : t ∈ s.calls) :
    ∃ p ∈ pcs, t = ⟨p.1, p.2.code a o⟩ := by
  rw [hc.calls] at ht
  obtain ⟨p, hp, rfl⟩ := Multiset.mem_map.mp ht
  exact ⟨p, hp, rfl⟩

theorem Counted.call_of {p : Option Nat × Pc} (hp : p ∈ pcs) :
    (⟨p.1, p.2.code a o⟩ : Call) ∈ s.calls := by
  rw [hc.calls]
  exact Multiset.mem_map_of_mem (fun p => (⟨p.1, p.2.code a o⟩ : Call)) hp

omit hc in
theorem share_le {p : Option Nat × Pc} (hp : p ∈ pcs) :
    p.2.share.strong ≤ (holdings pcs).strong ∧ p.2.share.last ≤ (holdings pcs).last ∧
      p.2.share.weak ≤ (holdings pcs).weak ∧ p.2.share.closing ≤ (holdings pcs).closing := by
  obtain ⟨rest, rfl⟩ := Multiset.exists_cons_of_mem hp
  rw [holdings_cons]
  exact ⟨Nat.le_add_right _ _, Nat.le_add_right _ _, Nat.le_add_right _ _, Nat.le_add_right _ _⟩

/-- Once the control block is freed, nobody holds anything but a result. -/
theorem Counted.after_ctrl (h : s.CtrlFreed a o) :
    s.strong = ∅ ∧ s.weak = ∅ ∧ ∀ t ∈ s.calls, ∃ out, t.code = .done out := by
  have hcount := hc.agrees.ctrl_freed
  have hpos := List.count_pos_iff.mpr h
  have hwatchers : (s.handles + holdings pcs).watchers = 0 := by
    by_contra hne
    have hkeep := Ledger.keep_of_watchers (Nat.pos_of_ne_zero hne)
    omega
  have hstrong : ¬ 0 < (s.handles + holdings pcs).strong := by
    intro hlt
    have hlt' := Ledger.watchers_of_strong hlt
    omega
  have hweak : ¬ 0 < (s.handles + holdings pcs).weak := by
    intro hlt
    have hlt' := Ledger.watchers_of_weak hlt
    omega
  have hlast : ¬ 0 < (s.handles + holdings pcs).last := by
    intro hlt
    have hlt' := Ledger.watchers_of_last hlt
    omega
  have hclosing : (s.handles + holdings pcs).closing = 0 := by
    rw [Ledger.keep_of_none hwatchers] at hcount
    omega
  simp only [Sharing.handles, Ledger.strong_add, Ledger.weak_add, Ledger.last_add,
    Ledger.closing_add] at hstrong hweak hlast hclosing
  have hnostrong : s.strong = ∅ := Finset.card_eq_zero.mp (by omega)
  have hnoweak : s.weak = ∅ := Finset.card_eq_zero.mp (by omega)
  refine ⟨hnostrong, hnoweak, fun t ht => ?_⟩
  obtain ⟨p, hp, rfl⟩ := hc.at_call ht
  obtain ⟨h1, h2, h3, h4⟩ := share_le hp
  have hborrow := hc.lent_strong p hp
  have hborrow' := hc.lent_weak p hp
  simp only [hnostrong, hnoweak, Finset.notMem_empty, and_false, exists_false] at hborrow hborrow'
  cases hpc : p.2 with
  | done out => exact ⟨out, rfl⟩
  | cloneStrong | downgrade => exact absurd (hpc ▸ trivial) hborrow
  | cloneWeak | upgradeLoad | upgradeBump => exact absurd (hpc ▸ trivial) hborrow'
  | dropStrong | tryMove | upgradeRead | freeData | moveRead | moveFree | dropWeak r | freeCtrl r =>
      simp only [hpc, Pc.share] at h1 h2 h3 h4
      omega

theorem Counted.balanced : Balanced a o s where
  idle_strong := by
    intro hidle hctrl
    rw [hc.strongCount_eq hctrl, hc.idle hidle]
    simp [Sharing.handles]
  idle_weak := by
    intro hidle hctrl
    rw [hc.weakCount_eq hctrl, hc.idle hidle, Ledger.watchers, Ledger.phantom]
    simp [Sharing.handles]
  idle_data := by
    intro hidle
    have hcount := hc.agrees.data_freed
    simp only [hc.idle hidle, holdings_zero, add_zero, Ledger.phantom, Sharing.handles] at hcount
    split at hcount <;> split <;> omega
  idle_ctrl := by
    intro hidle
    have hcount := hc.agrees.ctrl_freed
    simp only [hc.idle hidle, holdings_zero, add_zero, Ledger.keep, Ledger.watchers, Ledger.phantom,
      Sharing.handles] at hcount
    by_cases hstrong : 0 < s.strong.card
    · rw [if_pos hstrong, if_pos (by omega)] at hcount
      rw [if_neg (by omega)]
      omega
    · rw [if_neg hstrong] at hcount
      split at hcount <;> split <;> omega
  data_once := by
    have hcount := hc.agrees.data_freed
    omega
  moved_once := by
    have hmoved := hc.agrees.moved
    simp only [Sharing.handles, Ledger.moved_add] at hmoved
    omega
  data_zero := by
    intro hctrl hdata
    rw [hc.strongCount_eq hctrl]
    by_contra hne
    exact (hc.data_there (Nat.pos_of_ne_zero hne)).1 hdata
  data_pending := by
    intro hctrl hzero
    rw [hc.strongCount_eq hctrl] at hzero
    by_cases hdata : s.DataFreed a o
    · exact .inl hdata
    · right
      have hcount := hc.agrees.data_freed
      rw [List.count_eq_zero.mpr hdata, Ledger.phantom_of_none hzero] at hcount
      simp only [Sharing.handles, Ledger.last_add] at hcount
      have hpos : 0 < (holdings pcs).last := by omega
      obtain ⟨p, hp, hlast⟩ := exists_last hpos
      exact ⟨_, hc.call_of hp, Pc.freesData_of_last hlast p.1⟩
  ctrl_once := by
    have hcount := hc.agrees.ctrl_freed
    omega
  ctrl_pending := by
    intro hctrl hzero
    rw [hc.weakCount_eq hctrl] at hzero
    have hkeep := hc.keep_pos hctrl
    rw [Ledger.keep_of_none hzero] at hkeep
    simp only [Sharing.handles, Ledger.closing_add, Nat.zero_add] at hkeep
    obtain ⟨p, hp, hclosing⟩ := exists_closing hkeep
    exact ⟨_, hc.call_of hp, Pc.freesCtrl_of_closing hclosing p.1⟩
  ctrl_last := hc.after_ctrl
  alive := fun p hp =>
    ⟨hc.strong p hp, hc.data_there (Nat.add_pos_left (Finset.card_pos.mpr ⟨p, hp⟩) _)⟩
  returned := by
    intro t ht h hcode
    obtain ⟨p, hp, rfl⟩ := hc.at_call ht
    have hpc := Pc.code_done hcode
    have hsound := hc.sound p hp
    have hle := (share_le hp).1
    rw [hpc] at hsound hle
    exact ⟨hsound, hc.data_there (Nat.add_pos_right _ hle)⟩
  no_underflow := by
    intro t ht e hcode
    obtain ⟨p, hp, rfl⟩ := hc.at_call ht
    have hpc := Pc.code_done hcode
    have hsound := hc.sound p hp
    rw [hpc] at hsound
    exact hsound

end Promises

/-- A step frees a block only by a call whose duty that is, and then the counter is at zero. -/
theorem Counted.freesAtZero (hwf : WellFormed o) (hc : Counted a o s pcs) (h : Step a o s s') :
    FreesAtZero a o s s' := by
  cases h with
  | callStrong op id h hmem hfree => exact ⟨fun hnot hin => absurd hin hnot, fun hnot hin => absurd hin hnot⟩
  | callWeak op id h hmem hfree => exact ⟨fun hnot hin => absurd hin hnot, fun hnot hin => absurd hin hnot⟩
  | atomic lent c k rest hcalls =>
      obtain ⟨p, pcs, rfl, ht, rfl⟩ := hc.split hcalls
      obtain ⟨rfl, hcode⟩ := Call.mk.inj ht
      obtain ⟨pc', hmoves⟩ := hc.moves hwf hcode.symm
      have hle := share_le (Multiset.mem_cons_self p pcs)
      refine ⟨fun hnot hin => ?_, fun hnot hin => ?_⟩
      · have hlast := hmoves.data ((List.mem_append.mp hin).resolve_left hnot)
        have hcount := hc.agrees.data_freed
        have hctrl : ¬ s.CtrlFreed a o := by
          intro hfreed
          obtain ⟨-, -, hdone⟩ := hc.after_ctrl hfreed
          obtain ⟨out, hout⟩ := hdone _ (hcalls ▸ Multiset.mem_cons_self _ _)
          cases hout
        rw [hc.strongCount_eq hctrl]
        by_contra hne
        have hphantom := Ledger.phantom_of_strong (Nat.pos_of_ne_zero hne)
        simp only [Ledger.last_add] at hphantom
        omega
      · have hclosing := hmoves.ctrl ((List.mem_append.mp hin).resolve_left hnot)
        have hcount := hc.agrees.ctrl_freed
        rw [hc.weakCount_eq hnot]
        by_contra hne
        have hkeep := Ledger.keep_of_watchers (Nat.pos_of_ne_zero hne)
        simp only [Ledger.closing_add] at hkeep
        omega
  | returns lent out rest hcalls id hid =>
      have hfreed : (Sharing.deliver { s with calls := rest } id out).freed = s.freed := by
        rcases out with e | h | h | _ | _ <;> rfl
      refine ⟨fun hnot hin => ?_, fun hnot hin => ?_⟩
      · rw [Sharing.DataFreed, hfreed] at hin
        exact absurd hin hnot
      · rw [Sharing.CtrlFreed, hfreed] at hin
        exact absurd hin hnot
  | elsewhere w h => exact ⟨fun hnot hin => absurd hin hnot, fun hnot hin => absurd hin hnot⟩

/-- In every state that any number of handles and any interleaving of their operations can reach,
the counters keep their promises, and every step from there frees a block only at a zero counter. -/
theorem rc_weak_protocol {s₀ : Sharing} (h : Created a o s₀)
    (hrun : Relation.ReflTransGen (Step a o) s₀ s) :
    Balanced a o s ∧ ∀ s', Step a o s s' → FreesAtZero a o s s' := by
  obtain ⟨pcs, hc⟩ := h.reaches hrun
  exact ⟨hc.balanced, fun s' hstep => hc.freesAtZero h.wellFormed hstep⟩

def newObject : BStackRc := ⟨⟨16, 24⟩, ⟨48, 40⟩⟩

def homeAllocator : Allocator := ⟨0, false, some 8, 0⟩

def newWorld : World :=
  (((((World.blank []).grant 0 ⟨16, 24⟩ (by decide)).grant 0 ⟨48, 40⟩ (by decide)).store 0 64
    (leBytes 8 1)).store 0 72 (leBytes 8 1)).store 0 80 (leBytes 8 16)

def newSharing : Sharing := ⟨newWorld, {(0, newObject)}, ∅, 0, [], 0⟩

theorem created_newSharing : Created homeAllocator newObject newSharing where
  quiet := rfl
  data := by decide +kernel
  ctrl := by decide +kernel
  distinct := by decide
  size := rfl
  strong_one := by decide +kernel
  weak_one := by decide +kernel
  forward := by decide +kernel
  handle := rfl
  no_weak := rfl
  idle := rfl
  none_freed := rfl
  none_moved := rfl

/-- The only handle is being dropped. -/
theorem rc_weak_protocol_drop :
    Balanced homeAllocator newObject { newSharing with
      strong := newSharing.strong.erase (0, newObject)
      calls := {⟨none, newObject.drop homeAllocator⟩} } := by
  have hstep := Step.callStrong (a := homeAllocator) (o := newObject) (s := newSharing) .drop 0
    newObject (by decide) (by
      rintro - ⟨t, ht, -⟩
      exact Multiset.notMem_zero t ht)
  exact (rc_weak_protocol created_newSharing (.single hstep)).1

end BStackRaii
