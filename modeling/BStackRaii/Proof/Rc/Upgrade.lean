import BStackRaii.Proof.Rc.Protocol
import Mathlib.Data.Multiset.Bind
/-!
# An upgrade that gives its claim back

What an upgrade holds while it undoes its claim is what another call would hold: a strong count first,
and then, if it was the last owner, the duty to free the data block. So the invariant of the protocol
covers it, with one program counter more for each such upgrade, and one for each duty that was given up
because the pointer could not be read again.
-/

namespace BStackRaii

variable {a : Allocator} {o : BStackRc} {pcs : Multiset (Option Nat × Pc)}

theorem World.Quiet.failing_tick {w : World} (h : w.Quiet) : w.failing.tick = w := by
  obtain ⟨files, attached, held, picks, faults, freed, handed, refuses⟩ := w
  cases h
  rfl

/-! ### The scripts -/

section Code

variable (hwf : WellFormed o)
include hwf

theorem claimed_code : Undo.claimed.code a o =
    .step (process a.stack (o.ctrl.start + CTRL_STRONG_OFFSET) (o.ctrl.start + CTRL_STRONG_OFFSET + 8)
      (Refcount.subCounter 1)) fun
      | .ok (prev, false) => if prev = 1 then Undo.retrying.code a o else .fail ioFault
      | .ok (_, true) => .done (.error Refcount.underflowErr)
      | .error e => .done (.error e) := by
  simp only [Undo.code, BStackWeak.unclaim, Refcount.fetchSub, fetchWith_strong hwf]
  congr 1

/-- `Undo.next` is the next step of the script. -/
theorem Undo.next_code (u : Undo) (w : World) :
    (u.code a o).advance w = ((u.next a o w).1.code a o, (u.next a o w).2) := by
  cases u with
  | claimed =>
      rw [claimed_code hwf, Script.advance, next]
      rcases (process a.stack (o.ctrl.start + CTRL_STRONG_OFFSET)
        (o.ctrl.start + CTRL_STRONG_OFFSET + 8) (Refcount.subCounter 1) w).out with e | ⟨prev, _ | _⟩
      · rfl
      · by_cases hlast : prev = 1
        · simp only [if_pos hlast]
        · simp only [if_neg hlast]
          rfl
      · rfl
  | retrying =>
      show (Script.step _ _).advance w = _
      rw [Script.advance, next]
      cases (readU64 a.stack (o.ctrl.start + CTRL_DATA_OFFSET) w).out with
      | error e => rfl
      | ok x => rfl
  | releasing p => rfl
  | failed e => rfl

/-- Only an upgrade that is about to read goes on when its step fails. -/
theorem Pc.upgradeRead_of_code {pc : Pc} {k : Except IoError Nat → Script IoError World Returned}
    (hcode : pc.code a o = .step (readU64 a.stack (o.ctrl.start + CTRL_DATA_OFFSET)) k)
    (hk : k (.error ioFault) = Undo.claimed.code a o) : pc = .upgradeRead := by
  have hadv := congrArg (fun p => (p.advance (World.blank []).failing).1) hcode
  have hread : (readU64 a.stack (o.ctrl.start + CTRL_DATA_OFFSET) (World.blank []).failing).out =
      .error ioFault := rfl
  simp only [Script.advance, hread, hk, claimed_code hwf] at hadv
  cases pc with
  | upgradeRead => rfl
  | done out => cases hadv
  | _ => cases hadv

end Code

/-! ### The invariant -/

/-- Where an undone upgrade can be while no decrement fails and no second read succeeds. -/
def Undo.Sound : Undo → Prop
  | claimed | retrying => True
  | releasing _ => False
  | failed e => e = ioFault

/-- Where a call stands that holds what the upgrade does. -/
def Undo.counters : Undo → Multiset (Option Nat × Pc)
  | claimed => {(none, .upgradeRead)}
  | retrying => {(none, .freeData)}
  | releasing _ => {(none, .freeData)}
  | failed _ => 0

section Counted

variable {t : Sharing}

theorem Counted.recall (hc : Counted a o t pcs) {calls : Multiset Call} (hcalls : calls = callsAt a o pcs) :
    Counted a o { t with calls } pcs := { hc with calls := hcalls }

/-- An upgrade that holds its claim has no use for the handle it borrows. -/
theorem Counted.unlend {lent : Option Nat} (hc : Counted a o t ((lent, .upgradeRead) ::ₘ pcs)) :
    Counted a o { t with calls := callsAt a o ((none, .upgradeRead) ::ₘ pcs) }
      ((none, .upgradeRead) ::ₘ pcs) where
  agrees := by
    have hA := hc.agrees
    rw [holdings_cons] at hA ⊢
    exact hA
  calls := rfl
  strong := hc.strong
  weak := hc.weak
  sound := by
    intro p hp
    cases Multiset.mem_cons.mp hp with
    | inl heq => exact heq ▸ trivial
    | inr hp => exact hc.sound p (Multiset.mem_cons_of_mem hp)
  lent_strong := by
    intro p hp hborrows
    cases Multiset.mem_cons.mp hp with
    | inl heq =>
        rw [heq] at hborrows
        exact False.elim hborrows
    | inr hp => exact hc.lent_strong p (Multiset.mem_cons_of_mem hp) hborrows
  lent_weak := by
    intro p hp hborrows
    cases Multiset.mem_cons.mp hp with
    | inl heq =>
        rw [heq] at hborrows
        exact False.elim hborrows
    | inr hp => exact hc.lent_weak p (Multiset.mem_cons_of_mem hp) hborrows

/-- What is left of an upgrade after it gave back its count: the duty to free the data block, if that
was the last count. -/
def afterUnclaim (prev : Nat) (pcs : Multiset (Option Nat × Pc)) : Multiset (Option Nat × Pc) :=
  if prev = 1 then (none, .freeData) ::ₘ pcs else pcs

/-- The undo of a claim lowers the strong counter by one, and cannot underflow. -/
theorem Counted.unclaim (hwf : WellFormed o) (hc : Counted a o t ((none, .upgradeRead) ::ₘ pcs)) :
    ∃ prev w',
      process a.stack (o.ctrl.start + CTRL_STRONG_OFFSET) (o.ctrl.start + CTRL_STRONG_OFFSET + 8)
        (Refcount.subCounter 1) t.world = ⟨.ok (prev, false), w', [t.world]⟩ ∧ w'.freed = t.world.freed ∧
      (w'.files a.stack).bytes.word (o.ctrl.start + CTRL_STRONG_OFFSET) + 1 = t.strongCount a o ∧
      Counted a o { t with world := w', calls := callsAt a o (afterUnclaim prev pcs) }
        (afterUnclaim prev pcs) := by
  have hA : Agrees a o (⟨1, 0, 0, 0, 0⟩ + (t.handles + holdings pcs)) t.freed t.world := by
    rw [add_left_comm, ← show (Pc.upgradeRead).share = ⟨1, 0, 0, 0, 0⟩ from rfl]
    have hagrees := hc.agrees
    rwa [holdings_cons] at hagrees
  obtain ⟨prev, w', hrun, hfreed, hA'⟩ := hA.sub_strong hwf
  have hrest := fun p hp => hc.sound p (Multiset.mem_cons_of_mem hp)
  have hstrong := fun p hp => hc.lent_strong p (Multiset.mem_cons_of_mem hp)
  have hweak := fun p hp => hc.lent_weak p (Multiset.mem_cons_of_mem hp)
  have hcount := hA.ctrl_freed
  have hcount' := hA'.ctrl_freed
  have hkeep : 0 < (⟨1, 0, 0, 0, 0⟩ + (t.handles + holdings pcs) : Ledger).keep :=
    Ledger.keep_pos (Ledger.watchers_of_strong (Nat.add_pos_left Nat.one_pos _))
  have hbefore := hA.strong hkeep
  have hafter := hA'.strong (by omega)
  refine ⟨prev, w', hrun, hfreed, ?_, ?_⟩
  · rw [hafter, Sharing.strongCount, hbefore, Ledger.strong_add, apply_ite Ledger.strong, Ledger.strong_add,
      Nat.zero_add, ite_self]
    exact Nat.add_comm _ _
  · by_cases hlast : prev = 1
    · rw [if_pos hlast] at hA'
      rw [afterUnclaim, if_pos hlast]
      refine ⟨?_, rfl, hc.strong, hc.weak, ?_, ?_, ?_⟩
      · rw [holdings_cons, add_left_comm]
        exact hA'
      · intro p hp
        cases Multiset.mem_cons.mp hp with
        | inl heq => exact heq ▸ trivial
        | inr hp => exact hrest p hp
      · intro p hp hborrows
        cases Multiset.mem_cons.mp hp with
        | inl heq =>
        rw [heq] at hborrows
        exact False.elim hborrows
        | inr hp => exact hstrong p hp hborrows
      · intro p hp hborrows
        cases Multiset.mem_cons.mp hp with
        | inl heq =>
        rw [heq] at hborrows
        exact False.elim hborrows
        | inr hp => exact hweak p hp hborrows
    · rw [if_neg hlast] at hA'
      rw [afterUnclaim, if_neg hlast]
      exact ⟨hA', rfl, hc.strong, hc.weak, hrest, hstrong, hweak⟩

end Counted

namespace Upgrading

variable {s s' : Upgrading}

def extra (s : Upgrading) : Multiset (Option Nat × Pc) :=
  s.undoing.bind Undo.counters + s.leaked • {(none, .freeData)}

/-- The object as a protocol without failing reads would see it. -/
def shadow (a : Allocator) (o : BStackRc) (s : Upgrading) (pcs : Multiset (Option Nat × Pc)) : Sharing :=
  { s.base with calls := callsAt a o (pcs + s.extra) }

structure Tracked (a : Allocator) (o : BStackRc) (s : Upgrading) (pcs : Multiset (Option Nat × Pc)) : Prop where
  calls : s.base.calls = callsAt a o pcs
  counted : Counted a o (s.shadow a o pcs) (pcs + s.extra)

theorem not_lent_extra {p : Option Nat × Pc} (hp : p ∈ s.extra) : p.1 = none := by
  cases Multiset.mem_add.mp hp with
  | inl hp =>
      obtain ⟨u, -, hu⟩ := Multiset.mem_bind.mp hp
      cases u with
      | failed e => exact absurd hu (Multiset.notMem_zero p)
      | claimed => exact congrArg Prod.fst (Multiset.mem_singleton.mp hu)
      | retrying => exact congrArg Prod.fst (Multiset.mem_singleton.mp hu)
      | releasing q => exact congrArg Prod.fst (Multiset.mem_singleton.mp hu)
  | inr hp => exact congrArg Prod.fst (Multiset.mem_singleton.mp (Multiset.mem_of_mem_nsmul hp))

theorem Tracked.split (h : s.Tracked a o pcs) {t : Call} {rest : Multiset Call}
    (hcalls : s.base.calls = t ::ₘ rest) :
    ∃ p pcs', pcs = p ::ₘ pcs' ∧ t = ⟨p.1, p.2.code a o⟩ ∧ rest = callsAt a o pcs' := by
  have hmem : t ∈ callsAt a o pcs := by
    rw [← h.calls, hcalls]
    exact Multiset.mem_cons_self t rest
  obtain ⟨p, hp, rfl⟩ := Multiset.mem_map.mp hmem
  obtain ⟨pcs', rfl⟩ := Multiset.exists_cons_of_mem hp
  refine ⟨p, pcs', rfl, rfl, ?_⟩
  have hmap := hcalls.symm.trans h.calls
  rw [callsAt_cons] at hmap
  exact (Multiset.cons_inj_right _).mp hmap

/-- A handle that no call borrows, no undone upgrade does either. -/
theorem Tracked.not_borrowed (h : s.Tracked a o pcs) {id : Nat} (hfree : ¬ s.base.Borrowed id) :
    ¬ (s.shadow a o pcs).Borrowed id := by
  intro ⟨t, ht, hlent⟩
  obtain ⟨p, hp, rfl⟩ := Multiset.mem_map.mp ht
  cases Multiset.mem_add.mp hp with
  | inl hp =>
      apply hfree
      refine ⟨⟨p.1, p.2.code a o⟩, ?_, hlent⟩
      rw [h.calls]
      exact Multiset.mem_map_of_mem (fun p => (⟨p.1, p.2.code a o⟩ : Call)) hp
  | inr hp =>
      have hnone := not_lent_extra hp
      rw [show p.1 = some id from hlent] at hnone
      cases hnone

/-! ### The step lemma -/

theorem tracked_of {P : Multiset (Option Nat × Pc)} (hcalls : s.base.calls = callsAt a o pcs)
    (hextra : pcs + s.extra = P) (hc : Counted a o { s.base with calls := callsAt a o P } P) :
    s.Tracked a o pcs := by
  subst hextra
  exact ⟨hcalls, hc⟩

theorem extra_cons {u : Undo} {rest : Multiset Undo} (hundo : s.undoing = u ::ₘ rest) :
    s.extra = u.counters + (rest.bind Undo.counters + s.leaked • {(none, .freeData)}) := by
  rw [extra, hundo, Multiset.cons_bind, add_assoc]

/-- A step of the calls keeps the invariant, whatever the undone upgrades hold beside them. -/
theorem Tracked.base (h : s.Tracked a o pcs) (hwf : WellFormed o) {b : Sharing}
    (hstep : BStackRaii.Step a o s.base b) : ∃ pcs', Upgrading.Tracked a o { s with base := b } pcs' := by
  cases hstep with
  | callStrong op id hd hmem hfree =>
      have hc := h.counted.callStrong hwf op id hd hmem fun hb => h.not_borrowed (hfree hb)
      refine ⟨(if op.borrows then some id else none, op.pc) ::ₘ pcs, ?_, ?_⟩
      · obtain rfl : hd = o := h.counted.strong _ hmem
        rw [callsAt_cons, ← h.calls, op.code_eq hwf]
      · rw [Multiset.cons_add]
        exact hc.recall (congrArg (callsAt a o) (Multiset.cons_add _ _ _))
  | callWeak op id hd hmem hfree =>
      have hc := h.counted.callWeak hwf op id hd hmem fun hb => h.not_borrowed (hfree hb)
      refine ⟨(if op.borrows then some id else none, op.pc) ::ₘ pcs, ?_, ?_⟩
      · obtain rfl : hd = ⟨o.ctrl⟩ := h.counted.weak _ hmem
        rw [callsAt_cons, ← h.calls, op.code_eq hwf]
      · rw [Multiset.cons_add]
        exact hc.recall (congrArg (callsAt a o) (Multiset.cons_add _ _ _))
  | atomic lent c k rest hcalls =>
      obtain ⟨p, pcs, rfl, ht, rfl⟩ := h.split hcalls
      obtain ⟨rfl, hcode⟩ := Call.mk.inj ht
      have hcounted := h.counted
      rw [Multiset.cons_add] at hcounted
      obtain ⟨pc', hmoves⟩ := hcounted.moves hwf hcode.symm
      refine ⟨(p.1, pc') ::ₘ pcs, ?_, ?_⟩
      · rw [callsAt_cons, ← hmoves.code]
        rfl
      · rw [Multiset.cons_add]
        exact (hcounted.atomic hmoves).recall (congrArg (callsAt a o) (Multiset.cons_add _ _ _))
  | returns lent out rest hcalls id hid =>
      obtain ⟨p, pcs, rfl, ht, rfl⟩ := h.split hcalls
      obtain ⟨rfl, hcode⟩ := Call.mk.inj ht
      have hcounted := h.counted
      rw [Multiset.cons_add] at hcounted
      have hc := (hcounted.returns (Pc.code_done hcode.symm) hid).recall rfl
      refine ⟨pcs, ?_, ?_⟩
      · rcases out with e | h | h | _ | _ <;> rfl
      · rcases out with e | h | h | _ | _ <;> exact hc
  | elsewhere w hl =>
      have hA : Agrees a o ((s.shadow a o pcs).handles + holdings (pcs + s.extra)) s.base.freed s.base.world :=
        h.counted.agrees
      have hA' := hA.elsewhere hwf hl
      exact ⟨pcs, tracked_of h.calls rfl { h.counted with agrees := hA', calls := rfl }⟩

/-- A failing read turns the call into an upgrade that is being undone. -/
theorem Tracked.readFails (h : s.Tracked a o pcs) (hwf : WellFormed o) {lent : Option Nat}
    {k : Except IoError Nat → Script IoError World Returned} {rest : Multiset Call}
    (hcalls : s.base.calls = ⟨lent, .step (readU64 a.stack (o.ctrl.start + CTRL_DATA_OFFSET)) k⟩ ::ₘ rest)
    (hk : k (.error ioFault) = Undo.claimed.code a o) :
    ∃ pcs', Upgrading.Tracked a o { s with
      base := { s.base with calls := rest }
      undoing := .claimed ::ₘ s.undoing } pcs' := by
  obtain ⟨p, pcs, rfl, ht, rfl⟩ := h.split hcalls
  obtain ⟨rfl, hcode⟩ := Call.mk.inj ht
  obtain ⟨lent, pc⟩ := p
  obtain rfl : pc = .upgradeRead := Pc.upgradeRead_of_code hwf hcode.symm hk
  have hcounted := h.counted
  rw [Multiset.cons_add] at hcounted
  refine ⟨pcs, tracked_of rfl ?_ hcounted.unlend⟩
  rw [extra_cons rfl, ← extra]
  exact Multiset.add_cons _ _ _

/-- The undo gives the claim back. -/
theorem Tracked.undo_claimed (h : s.Tracked a o pcs) (hwf : WellFormed o) {rest : Multiset Undo}
    (hundo : s.undoing = .claimed ::ₘ rest) :
    (s.undo a o .claimed rest s.base.world).Tracked a o pcs ∧
      (s.undo a o .claimed rest s.base.world).base.strongCount a o + 1 = s.base.strongCount a o ∧
      ((Undo.claimed.next a o s.base.world).1 = .retrying ∨
        (Undo.claimed.next a o s.base.world).1 = .failed ioFault) := by
  have hcounted := h.counted
  have hextra : pcs + s.extra = (none, .upgradeRead) ::ₘ
      (pcs + (rest.bind Undo.counters + s.leaked • {(none, .freeData)})) := by
    rw [extra_cons hundo]
    exact Multiset.add_cons _ _ _
  rw [hextra] at hcounted
  obtain ⟨prev, w', hrun, hfreed, hcount, hc⟩ := hcounted.unclaim hwf
  have hnext : Undo.claimed.next a o s.base.world =
      (if prev = 1 then .retrying else .failed ioFault, w') := by
    rw [Undo.next, show process a.stack (o.ctrl.start + CTRL_STRONG_OFFSET)
      (o.ctrl.start + CTRL_STRONG_OFFSET + 8) (Refcount.subCounter 1) s.base.world =
        ⟨.ok (prev, false), w', [s.base.world]⟩ from hrun]
  refine ⟨?_, ?_, ?_⟩
  · refine tracked_of h.calls ?_ (P := afterUnclaim prev
      (pcs + (rest.bind Undo.counters + s.leaked • {(none, .freeData)}))) ?_
    · rw [extra_cons rfl, hnext, afterUnclaim]
      split
      · exact Multiset.add_cons _ _ _
      · rw [show (Undo.failed ioFault).counters = 0 from rfl, zero_add]
        rfl
    · have hnone : newlyFreed s.base.world w' = [] := newlyFreed_of_eq hfreed
      rw [undo, hnext, hnone, List.append_nil]
      exact hc
  · rw [undo, hnext]
    exact hcount
  · rw [hnext]
    by_cases hlast : prev = 1
    · exact .inl (if_pos hlast)
    · exact .inr (if_neg hlast)

/-- A second read that fails leaves the duty to free the data block with nobody. -/
theorem Tracked.retryFails (h : s.Tracked a o pcs) {rest : Multiset Undo}
    (hundo : s.undoing = .retrying ::ₘ rest) :
    Upgrading.Tracked a o
      { s.undo a o .retrying rest s.base.world.failing with leaked := s.leaked + 1 } pcs := by
  have hquiet : s.base.world.Quiet := h.counted.agrees.quiet
  have hnext : Undo.retrying.next a o s.base.world.failing = (.failed ioFault, s.base.world) := by
    show (Undo.failed ioFault, s.base.world.failing.tick) = _
    rw [hquiet.failing_tick]
  refine tracked_of h.calls ?_ (P := pcs + s.extra) ?_
  · congr 1
    rw [extra_cons hundo, extra_cons rfl, hnext]
    show 0 + (rest.bind Undo.counters + (s.leaked + 1) • {(none, Pc.freeData)}) = _
    rw [succ_nsmul, zero_add, ← add_assoc]
    exact Multiset.add_comm _ _
  · have hnone : newlyFreed s.base.world s.base.world = [] := newlyFreed_of_eq rfl
    rw [undo, hnext]
    dsimp only
    rw [hnone, List.append_nil]
    exact h.counted

/-- The invariant. -/
structure Kept (a : Allocator) (o : BStackRc) (s : Upgrading) : Prop where
  tracked : ∃ pcs, s.Tracked a o pcs
  sound : ∀ u ∈ s.undoing, u.Sound

/-- The step lemma of failing upgrades. -/
theorem Kept.step (hk : Kept a o s) (hwf : WellFormed o) (hstep : Upgrading.Step a o s s')
    (hcond : ¬ s.Rereads a o s') (hundone : ¬ s.Orphans a o s') : Kept a o s' := by
  obtain ⟨⟨pcs, htracked⟩, hsound⟩ := hk
  cases hstep with
  | base h => exact ⟨htracked.base hwf h, hsound⟩
  | readFails lent k rest hcalls hk =>
      refine ⟨htracked.readFails hwf hcalls hk, fun u hu => ?_⟩
      cases Multiset.mem_cons.mp hu with
      | inl heq => exact heq ▸ trivial
      | inr hu => exact hsound u hu
  | undo u rest hundo =>
      have hrest : ∀ v ∈ rest, v.Sound := fun v hv => hsound v (hundo ▸ Multiset.mem_cons_of_mem hv)
      have hu : u.Sound := hsound u (hundo ▸ Multiset.mem_cons_self u rest)
      cases u with
      | claimed =>
          obtain ⟨htracked', -, hnext⟩ := htracked.undo_claimed hwf hundo
          refine ⟨⟨pcs, htracked'⟩, fun v hv => ?_⟩
          cases Multiset.mem_cons.mp hv with
          | inr hv => exact hrest v hv
          | inl heq =>
              rw [heq]
              cases hnext with
              | inl h => exact h ▸ trivial
              | inr h => exact h ▸ rfl
      | retrying => exact absurd ⟨rest, hundo, rfl⟩ hcond
      | releasing p => exact False.elim hu
      | failed e =>
          have hsame : s.undo a o (.failed e) rest s.base.world = s := by
            have hnone : newlyFreed s.base.world s.base.world = [] := newlyFreed_of_eq rfl
            rw [undo, Undo.next, hnone, List.append_nil, ← hundo]
          rw [hsame]
          exact ⟨⟨pcs, htracked⟩, hsound⟩
  | unclaimFails rest hundo => exact absurd ⟨rest, hundo, rfl⟩ hundone
  | retryFails rest hundo =>
      refine ⟨⟨pcs, htracked.retryFails hundo⟩, fun v hv => ?_⟩
      cases Multiset.mem_cons.mp hv with
      | inl heq => exact heq ▸ rfl
      | inr hv => exact hsound v (hundo ▸ Multiset.mem_cons_of_mem hv)
  | returns u rest hundo out hdone =>
      have hu : u.Sound := hsound u (hundo ▸ Multiset.mem_cons_self u rest)
      refine ⟨⟨pcs, ?_⟩, fun v hv => hsound v (hundo ▸ Multiset.mem_cons_of_mem hv)⟩
      have hextra := extra_cons hundo
      cases u with
      | claimed =>
          rw [claimed_code hwf] at hdone
          cases hdone
      | retrying => cases hdone
      | releasing p => exact False.elim hu
      | failed e =>
          refine tracked_of htracked.calls ?_ htracked.counted
          rw [hextra, show (Undo.failed e).counters = 0 from rfl, zero_add]
          rfl

/-! ### What a failing upgrade leaves behind -/

/-- The promises about upgrades whose read fails, in one state. -/
structure Neutral (a : Allocator) (o : BStackRc) (s : Upgrading) : Prop where
  /-- With nothing in flight, the strong counter counts the handles, -/
  idle_strong : s.base.calls = 0 → s.undoing = 0 → ¬ s.base.CtrlFreed a o →
    s.base.strongCount a o = s.base.strong.card
  /-- the data block is freed once there are none, or an upgrade failed to read the pointer twice, -/
  idle_data : s.base.calls = 0 → s.undoing = 0 →
    s.base.freed.count (a.stack, o.data) + s.leaked = if s.base.strong.card = 0 then 1 else 0
  /-- and with the data block the phantom is released. -/
  idle_weak : s.base.calls = 0 → s.undoing = 0 → ¬ s.base.CtrlFreed a o →
    s.base.weakCount a o = s.base.weak.card + (if 0 < s.base.strong.card then 1 else 0) + s.leaked
  /-- The undo of a claim takes exactly one from the counter, and then nothing; -/
  undone_once : ∀ rest, s.undoing = .claimed ::ₘ rest →
    (s.undo a o .claimed rest s.base.world).base.strongCount a o + 1 = s.base.strongCount a o
  undone : ∀ u rest, s.undoing = u ::ₘ rest → u ≠ .claimed →
    (s.undo a o u rest s.base.world).base.strongCount a o = s.base.strongCount a o
  /-- no counter underflows. -/
  call_errors : ∀ t ∈ s.base.calls, ∀ e, t.code = .done (.error e) → e = Refcount.overflowErr
  errors : ∀ u ∈ s.undoing, ∀ e, u.code a o = .done (.error e) → e = ioFault

theorem holdings_leaked (n : Nat) : holdings (n • {(none, .freeData)}) = ⟨0, n, 0, 0, 0⟩ := by
  rw [Multiset.nsmul_singleton]
  induction n with
  | zero => rfl
  | succ n ih =>
      rw [Multiset.replicate_succ, holdings_cons, ih, Nat.add_comm n 1]
      rfl

theorem Tracked.idle (h : s.Tracked a o pcs) (hcalls : s.base.calls = 0) (hundo : s.undoing = 0) :
    (s.shadow a o pcs).handles + holdings (pcs + s.extra) =
      ⟨s.base.strong.card, s.leaked, s.base.weak.card, 0, s.base.moved⟩ := by
  have hidle : pcs = 0 := Multiset.map_eq_zero.mp (h.calls.symm.trans hcalls)
  have hextra : s.extra = s.leaked • {(none, .freeData)} := by
    rw [extra, hundo, Multiset.zero_bind, zero_add]
  rw [hidle, zero_add, hextra, holdings_leaked]
  simp only [shadow, Sharing.handles]
  ext <;> simp

theorem Kept.neutral (hk : Kept a o s) (hwf : WellFormed o) : Neutral a o s := by
  obtain ⟨⟨pcs, h⟩, hsound⟩ := hk
  have hA := h.counted.agrees
  refine ⟨?_, ?_, ?_, ?_, ?_, ?_, ?_⟩
  · intro hcalls hundo hctrl
    have hcount := h.counted.strongCount_eq hctrl
    rw [h.idle hcalls hundo] at hcount
    exact hcount
  · intro hcalls hundo
    rw [h.idle hcalls hundo] at hA
    have hcount : s.base.freed.count (a.stack, o.data) +
        ((if 0 < s.base.strong.card then 1 else 0) + s.leaked) = 1 := hA.data_freed
    split at hcount <;> split <;> omega
  · intro hcalls hundo hctrl
    have hcount := h.counted.weakCount_eq hctrl
    rw [h.idle hcalls hundo, Ledger.watchers, Ledger.phantom, ← Nat.add_assoc] at hcount
    exact hcount
  · intro rest hundo
    exact (h.undo_claimed hwf hundo).2.1
  · intro u rest hundo hne
    have hu : u.Sound := hsound u (hundo ▸ Multiset.mem_cons_self u rest)
    cases u with
    | claimed => exact absurd rfl hne
    | releasing p => exact False.elim hu
    | failed e => rfl
    | retrying =>
        -- only the read is left, and it finds the control block, which the duty to free the data keeps
        have hlast : 0 < ((s.shadow a o pcs).handles + holdings (pcs + s.extra)).last := by
          rw [extra_cons hundo, Ledger.last_add]
          refine Nat.add_pos_right _ ?_
          have hmem : ((none, .freeData) : Option Nat × Pc) ∈
              pcs + (Undo.retrying.counters + (rest.bind Undo.counters + s.leaked • {(none, .freeData)})) :=
            Multiset.mem_add.mpr (.inr (Multiset.mem_add.mpr (.inl (Multiset.mem_singleton_self _))))
          exact Nat.lt_of_lt_of_le Nat.one_pos (share_le hmem).2.1
        have hrun := hA.load_forward hwf (Ledger.watchers_of_last hlast)
        have hnext : Undo.retrying.next a o s.base.world =
            (.releasing (Undo.releaseCode a o o.data.start), s.base.world) := by
          rw [Undo.next, show readU64 a.stack (o.ctrl.start + CTRL_DATA_OFFSET) s.base.world =
            ⟨.ok o.data.start, s.base.world, []⟩ from hrun]
        rw [undo, hnext]
        rfl
  · intro t ht e hcode
    rw [h.calls] at ht
    obtain ⟨p, hp, rfl⟩ := Multiset.mem_map.mp ht
    have hpsound := h.counted.sound p (Multiset.mem_add.mpr (.inl hp))
    rw [Pc.code_done hcode] at hpsound
    exact hpsound
  · intro u hu e hcode
    have husound := hsound u hu
    cases u with
    | claimed =>
        rw [claimed_code hwf] at hcode
        cases hcode
    | retrying => cases hcode
    | releasing p => exact False.elim husound
    | failed e' =>
        cases hcode
        exact husound

/-- The run lemma: as long as no decrement fails and no second read succeeds, every failing upgrade is
neutral, whatever the interleaving. -/
theorem upgrade_neutral {s₀ : Sharing} (h : Created a o s₀)
    (hrun : Relation.ReflTransGen (fun s s' => Upgrading.Step a o s s' ∧ ¬ s.Rereads a o s' ∧ ¬ s.Orphans a o s')
      ⟨s₀, 0, 0⟩ s) :
    Neutral a o s := by
  have hwf := h.wellFormed
  suffices hk : Kept a o s from hk.neutral hwf
  induction hrun with
  | refl =>
      refine ⟨⟨0, tracked_of h.idle rfl (h.counted.recall rfl)⟩, fun u hu => ?_⟩
      exact absurd hu (Multiset.notMem_zero u)
  | tail _ hstep ih => exact ih.step hwf hstep.1 hstep.2.1 hstep.2.2

end Upgrading

/-! ### The run where the second read succeeds -/

open Relation

/-- The states that a new object can reach with no decrement that fails and no second read that succeeds. -/
abbrev UpgradeRun (s : Upgrading) : Prop :=
  ReflTransGen (fun s s' => Upgrading.Step homeAllocator newObject s s' ∧
    ¬ s.Rereads homeAllocator newObject s' ∧ ¬ s.Orphans homeAllocator newObject s') ⟨newSharing, 0, 0⟩ s

theorem UpgradeRun.tail {s t u : Upgrading} (h : UpgradeRun s)
    (hstep : Upgrading.Step homeAllocator newObject s t) (hfirst : Undo.retrying ∉ s.undoing)
    (hundone : Undo.failed ioFault ∉ u.undoing) (heq : t = u) : UpgradeRun u := by
  subst heq
  refine ReflTransGen.tail h ⟨hstep, fun hrereads => hfirst ?_, fun horphans => hundone ?_⟩
  · obtain ⟨rest, hundo, -⟩ := hrereads
    rw [hundo]
    exact Multiset.mem_cons_self _ rest
  · obtain ⟨rest, -, rfl⟩ := horphans
    exact Multiset.mem_cons_self _ rest

def failingUpgrade (w : World) (strong : Finset (Nat × BStackRc)) (weak : Finset (Nat × BStackWeak))
    (calls : Multiset Call) (undoing : Multiset Undo) : Upgrading :=
  ⟨⟨w, strong, weak, calls, [], 0⟩, undoing, 0⟩

def downgradedWorld : World := (process 0 72 80 (Refcount.addCounter 1) newWorld).final

def claimedWorld : World := (process 0 64 72 Refcount.bumpCounter downgradedWorld).final

def droppedWorld : World := (process 0 64 72 (Refcount.subCounter 1) claimedWorld).final

def unclaimedWorld : World := (process 0 64 72 (Refcount.subCounter 1) droppedWorld).final

def underflowWorld : World := (process 0 64 72 (Refcount.subCounter 1) unclaimedWorld).final

def watcher : BStackWeak := ⟨newObject.ctrl⟩

/-- There is a weak handle, and its upgrade has the claim when the only strong handle starts to drop. -/
theorem claimed_run : UpgradeRun (failingUpgrade claimedWorld ∅ {(1, watcher)}
    {⟨none, newObject.drop homeAllocator⟩, ⟨some 1, upgradeReadCode homeAllocator newObject⟩} 0) := by
  have hnone : Undo.retrying ∉ (0 : Multiset Undo) := Multiset.notMem_zero _
  have hno : Undo.failed ioFault ∉ (0 : Multiset Undo) := Multiset.notMem_zero _
  have h : UpgradeRun (failingUpgrade newWorld {(0, newObject)} ∅
      {⟨some 0, newObject.downgrade homeAllocator⟩} 0) :=
    UpgradeRun.tail .refl (.base (.callStrong .downgrade 0 newObject (by decide) fun h => nomatch h)) hnone hno rfl
  have h : UpgradeRun (failingUpgrade downgradedWorld {(0, newObject)} ∅
      {⟨some 0, .done (.ok (.weak watcher))⟩} 0) :=
    h.tail (.base (.atomic (some 0) (process 0 72 80 (Refcount.addCounter 1)) _ 0 rfl)) hnone hno rfl
  have h : UpgradeRun (failingUpgrade downgradedWorld {(0, newObject)} {(1, watcher)} 0 0) :=
    h.tail (.base (.returns _ _ 0 rfl 1
      ⟨fun _ hmem => absurd (congrArg Prod.fst (Finset.mem_singleton.mp hmem)) Nat.one_ne_zero,
        fun _ hmem => absurd hmem (Finset.notMem_empty _)⟩)) hnone hno rfl
  have h : UpgradeRun (failingUpgrade downgradedWorld {(0, newObject)} {(1, watcher)}
      {⟨some 1, upgradeLoadCode homeAllocator newObject⟩} 0) :=
    h.tail (.base (.callWeak .upgrade 1 watcher (by decide) fun h => nomatch h)) hnone hno
      (congrArg (fun code => failingUpgrade downgradedWorld {(0, newObject)} {(1, watcher)} {⟨some 1, code⟩} 0)
        (upgrade_code created_newSharing.wellFormed))
  have h : UpgradeRun (failingUpgrade downgradedWorld {(0, newObject)} {(1, watcher)}
      {⟨some 1, upgradeBumpCode homeAllocator newObject⟩} 0) :=
    h.tail (.base (.atomic (some 1) (readU64 0 64) _ 0 rfl)) hnone hno rfl
  have h : UpgradeRun (failingUpgrade claimedWorld {(0, newObject)} {(1, watcher)}
      {⟨some 1, upgradeReadCode homeAllocator newObject⟩} 0) :=
    h.tail (.base (.atomic (some 1) (process 0 64 72 Refcount.bumpCounter) _ 0 rfl)) hnone hno rfl
  refine h.tail (.base (.callStrong .drop 0 newObject (by decide) fun _ => ?_)) hnone hno rfl
  intro ⟨t, ht, hlent⟩
  rw [Multiset.mem_singleton.mp ht] at hlent
  cases hlent

/-- The drop is through, the read has failed, and the upgrade has given back the last strong count. -/
theorem unclaimed_run : UpgradeRun (failingUpgrade unclaimedWorld ∅ {(1, watcher)} 0 {.retrying}) := by
  have hnone : Undo.retrying ∉ (0 : Multiset Undo) := Multiset.notMem_zero _
  have hno : Undo.failed ioFault ∉ (0 : Multiset Undo) := Multiset.notMem_zero _
  have h : UpgradeRun (failingUpgrade droppedWorld ∅ {(1, watcher)}
      {⟨none, .done (.ok .nothing)⟩, ⟨some 1, upgradeReadCode homeAllocator newObject⟩} 0) :=
    claimed_run.tail (.base (.atomic none (process 0 64 72 (Refcount.subCounter 1)) _
      {⟨some 1, upgradeReadCode homeAllocator newObject⟩} rfl)) hnone hno rfl
  have h : UpgradeRun (failingUpgrade droppedWorld ∅ {(1, watcher)}
      {⟨some 1, upgradeReadCode homeAllocator newObject⟩} 0) :=
    h.tail (.base (.returns _ _ {⟨some 1, upgradeReadCode homeAllocator newObject⟩} rfl 2
      ⟨fun _ hmem => absurd hmem (Finset.notMem_empty _),
        fun _ hmem => absurd (congrArg Prod.fst (Finset.mem_singleton.mp hmem)) (Nat.succ_succ_ne_one 0)⟩))
      hnone hno rfl
  have h : UpgradeRun (failingUpgrade droppedWorld ∅ {(1, watcher)} 0 {.claimed}) := by
    refine h.tail (.readFails (some 1) _ 0 rfl rfl) hnone (fun hmem => ?_) rfl
    cases Multiset.mem_singleton.mp hmem
  refine h.tail (.undo .claimed 0 rfl) (fun hmem => ?_) (fun hmem => ?_) rfl
  · cases Multiset.mem_singleton.mp hmem
  · cases Multiset.mem_singleton.mp hmem

theorem upgrade_neutral_unclaimed : Upgrading.Neutral homeAllocator newObject
    (failingUpgrade unclaimedWorld ∅ {(1, watcher)} 0 {.retrying}) :=
  Upgrading.upgrade_neutral created_newSharing unclaimed_run

/-- The second read succeeds: the release takes a second count, underflows, and both blocks stay. -/
theorem upgrade_underflows : ∃ s,
    ReflTransGen (Upgrading.Step homeAllocator newObject) ⟨newSharing, 0, 0⟩ s ∧
    s.base.calls = 0 ∧ s.undoing = 0 ∧ s.leaked = 0 ∧ s.base.strong = ∅ ∧ s.base.weak = {(1, watcher)} ∧
    ¬ s.base.DataFreed homeAllocator newObject ∧ s.base.weakCount homeAllocator newObject = 2 := by
  refine ⟨failingUpgrade underflowWorld ∅ {(1, watcher)} 0 0, ?_, rfl, rfl, rfl, rfl, rfl, ?_, rfl⟩
  · have h0 : ReflTransGen (Upgrading.Step homeAllocator newObject) ⟨newSharing, 0, 0⟩ _ :=
      ReflTransGen.mono (fun _ _ hstep => hstep.1) _ _ unclaimed_run
    have h1 : Upgrading.Step homeAllocator newObject
        (failingUpgrade unclaimedWorld ∅ {(1, watcher)} 0 {.retrying})
        (failingUpgrade unclaimedWorld ∅ {(1, watcher)} 0
          {.releasing (Undo.releaseCode homeAllocator newObject 16)}) :=
      .undo .retrying 0 rfl
    have h2 : Upgrading.Step homeAllocator newObject
        (failingUpgrade unclaimedWorld ∅ {(1, watcher)} 0
          {.releasing (Undo.releaseCode homeAllocator newObject 16)})
        (failingUpgrade underflowWorld ∅ {(1, watcher)} 0 {.releasing (.done (.error ioFault))}) :=
      .undo (.releasing (Undo.releaseCode homeAllocator newObject 16)) 0 rfl
    have h3 : Upgrading.Step homeAllocator newObject
        (failingUpgrade underflowWorld ∅ {(1, watcher)} 0 {.releasing (.done (.error ioFault))})
        (failingUpgrade underflowWorld ∅ {(1, watcher)} 0 0) :=
      .returns _ 0 rfl (.error ioFault) rfl
    exact ((h0.tail h1).tail h2).tail h3
  · intro h
    cases h

end BStackRaii
