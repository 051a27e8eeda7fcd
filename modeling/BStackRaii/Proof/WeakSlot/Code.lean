import BStackRaii.Proof.WeakSlot.Invariant
/-!
# The phases are the accessors

`Phase.code` is the script that is left at a phase. A phase at which a call starts is the accessor itself, and
`Phase.next_code` says that the step of a phase is the next atomic step of its script.
-/

namespace BStackRaii

namespace WeakSlot

variable {a : Allocator} {σ : Slot} {ctrl : Range} {size : Nat} {w : World}

section Scripts

variable (a : Allocator)

/-- What an accessor makes of the outcome of an upgrade. -/
def wrapUp (σ : Slot) (ctrl : Range) : Except IoError Returned → Script IoError World Handed
  | .ok r => .done (.ok (Handed.ofReturned r))
  | .error e =>
      match σ with
      | .variant _ _ => do
          let _ ← .attempt (releaseWeak a ctrl)
          .fail e
      | .field _ _ | .element _ _ _ => .fail e

/-- The second reading of the forward pointer, and the release behind it. -/
def retryCode (ctrl : Range) (size : Nat) (e : IoError) : Script IoError World Returned :=
  .step (readU64 a.stack (ctrl.start + CTRL_DATA_OFFSET)) fun
    | .ok x => do
        let _ ← .attempt (strongReleaseCtrl a ⟨x, size⟩ ctrl)
        .fail e
    | .error _ => .fail e

namespace Phase

/-- What is left of a call. -/
def code : Phase → Script IoError World Handed
  | set off _ new => setWeakField a off new
  | replace e start new => e.replace a start new
  | locate σ => σ.upgrade a
  | load σ ctrl size => .attempt (upgradeLoadCode a ⟨⟨0, size⟩, ctrl⟩) >>= wrapUp a σ ctrl
  | bump σ ctrl size => .attempt (upgradeBumpCode a ⟨⟨0, size⟩, ctrl⟩) >>= wrapUp a σ ctrl
  | forward σ ctrl size => .attempt (upgradeReadCode a ⟨⟨0, size⟩, ctrl⟩) >>= wrapUp a σ ctrl
  | unclaim σ ctrl size e => .attempt (BStackWeak.unclaim a size ⟨ctrl⟩ (ctrl.start + CTRL_STRONG_OFFSET)
      (ctrl.start + CTRL_DATA_OFFSET) e) >>= wrapUp a σ ctrl
  | retry σ ctrl size e => .attempt (retryCode a ctrl size e) >>= wrapUp a σ ctrl
  | releasing σ ctrl code e => .attempt code >>= fun _ => wrapUp a σ ctrl (.error e)
  | dropStrong h => h.drop a >>= fun r => .done (.ok (Handed.ofReturned r))
  | freeData h => freeDataCode a h .nothing >>= fun r => .done (.ok (Handed.ofReturned r))
  | payWeak ctrl payer => .attempt (releaseWeak a ctrl) >>= fun r => .lift (payer.finish r)
  | freeCtrl ctrl payer => .attempt (.atom (deallocRange a ctrl)) >>= fun r => .lift (payer.finish r)
  | done out => .done out

/-- The control block of the call is that of an object, and a release has a step to make. -/
def Grounded (w : World) : Phase → Prop
  | locate σ => ∀ bytes ctrl size, (getInto a.stack σ.fetched.start σ.fetched.len w).out = .ok bytes →
      σ.decode bytes = .ok (ctrl, size) → ∃ o : BStackRc, WellFormed o ∧ o.ctrl = ctrl ∧ o.data.len = size
  | unclaim _ ctrl _ _ | payWeak ctrl _ => ∃ o : BStackRc, WellFormed o ∧ o.ctrl = ctrl
  | releasing _ _ code _ => code.Running
  | dropStrong h | freeData h => WellFormed h
  | _ => True

end Phase

end Scripts

theorem Phase.settle_code (σ : Slot) (ctrl : Range) (r : Except IoError Returned) :
    (Phase.settle σ ctrl (r.map Handed.ofReturned)).code a = wrapUp a σ ctrl r := by
  cases r with
  | ok r => cases σ <;> rfl
  | error e =>
      cases σ with
      | variant t start => rfl
      | field off n => rfl
      | element contents i n => rfl

/-- The next step of a script whose outcome is passed on is the next step of the script. -/
theorem advance_attempt {β : Type} {p : Script IoError World β} (h : p.Running)
    (f : Except IoError β → Script IoError World Handed) (w : World) :
    (p.attempt >>= f).advance w = ((p.advance w).1.attempt >>= f, (p.advance w).2) := by
  cases p with
  | done out => exact h.elim
  | step c k => rfl

theorem readU64_eq (k off : Nat) (w : World) : (readU64 k off w).out = (getInto k off 8 w).out.map leNat ∧
    (readU64 k off w).final = (getInto k off 8 w).final := by
  rcases hrun : getInto k off 8 w with ⟨out, t, cs⟩
  cases out with
  | error e =>
      rw [readU64, Prog.bind_of_error hrun]
      exact ⟨rfl, rfl⟩
  | ok bytes =>
      rw [readU64, Prog.bind_of_ok hrun]
      exact ⟨rfl, rfl⟩

theorem upgrade_advance (σ : Slot) (w : World) : (σ.upgrade a).advance w =
    (match (getInto a.stack σ.fetched.start σ.fetched.len w).out with
      | .ok bytes => match σ.decode bytes with
          | .ok (ctrl, size) => .attempt (BStackWeak.upgrade a size ⟨ctrl⟩) >>= wrapUp a σ ctrl
          | .error out => .done out
      | .error e => .done (.error e),
      (getInto a.stack σ.fetched.start σ.fetched.len w).final) := by
  cases σ with
  | field off size =>
      obtain ⟨hout, hfinal⟩ := readU64_eq a.stack off w
      simp only [Slot.upgrade, upgradeWeakField, borrowUpgrade, Script.atom_bind, Slot.fetched, Slot.decode,
        Script.advance, hout, hfinal]
      cases (getInto a.stack off 8 w).out with
      | error e => rfl
      | ok bytes =>
          simp only [Except.map, Script.done_ok_bind]
          by_cases hnull : leNat bytes = 0
          · simp only [if_pos hnull]
            rfl
          · simp only [if_neg hnull]
            congr 2
            funext r
            cases r <;> rfl
  | element contents i size =>
      simp only [Slot.upgrade, upgradeElement, borrowUpgrade, Script.atom_bind, Slot.fetched, Slot.decode,
        Script.advance]
      cases (getInto a.stack contents.start contents.len w).out with
      | error e => rfl
      | ok bytes =>
          simp only [Script.done_ok_bind]
          by_cases hin : 8 * i + 8 ≤ bytes.length
          · simp only [if_pos hin]
            congr 2
            funext r
            cases r <;> rfl
          · simp only [if_neg hin]
            rfl
  | variant e start =>
      simp only [Slot.upgrade, EnumType.read, readArm, Script.atom_bind, Slot.fetched, Slot.decode, Script.advance]
      cases (getInto a.stack start e.size w).out with
      | error e => rfl
      | ok bytes =>
          simp only [Script.done_ok_bind]
          rcases e.variants (e.discOf bytes) with _ | _ | _
          · rfl
          · rfl
          · rfl

/-- A script whose outcome is thrown away ends as its continuation does. -/
theorem attempt_then_fail {β : Type} (p : Script IoError World β) (e : IoError)
    (f : Except IoError Returned → Script IoError World Handed) :
    (Script.attempt (p.attempt >>= fun _ => .fail e) >>= f) = p.attempt >>= fun _ => f (.error e) := by
  induction p with
  | done out => rfl
  | step c k ih =>
      refine congrArg (Script.step c) (funext fun r => ?_)
      exact ih r

theorem handle_code (p : Script IoError World Unit) :
    ((p >>= fun _ => pure Returned.nothing) >>= fun r => .done (.ok (Handed.ofReturned r))) =
      p.attempt >>= fun r => .lift (Payer.handle.finish r) := by
  induction p with
  | done out => cases out <;> rfl
  | step c k ih => exact congrArg (Script.step c) (funext ih)

section Continuations

variable (a : Allocator)

/-- What an upgrade does with the strong count it read. -/
def afterLoad (ctrl : Range) (size : Nat) : Except IoError Nat → Script IoError World Returned
  | .ok cur => if cur = 0 then .done (.ok .nothing) else upgradeBumpCode a ⟨⟨0, size⟩, ctrl⟩
  | .error e => .done (.error e)

def afterBump (ctrl : Range) (size : Nat) : Except IoError (Option Nat × Bool) → Script IoError World Returned
  | .ok (some _, false) => upgradeReadCode a ⟨⟨0, size⟩, ctrl⟩
  | .ok (none, false) => .done (.ok .nothing)
  | .ok (_, true) => .done (.error Refcount.overflowErr)
  | .error e => .done (.error e)

def afterForward (ctrl : Range) (size : Nat) : Except IoError Nat → Script IoError World Returned
  | .ok x => .done (.ok (.strong ⟨⟨x, size⟩, ctrl⟩))
  | .error e => BStackWeak.unclaim a size ⟨ctrl⟩ (ctrl.start + CTRL_STRONG_OFFSET) (ctrl.start + CTRL_DATA_OFFSET) e

def afterUnclaim (ctrl : Range) (size : Nat) (e : IoError) :
    Except IoError (Nat × Bool) → Script IoError World Returned
  | .ok (prev, false) => if prev = 1 then retryCode a ctrl size e else .fail e
  | .ok (_, true) => .done (.error Refcount.underflowErr)
  | .error e => .done (.error e)

def afterRetry (ctrl : Range) (size : Nat) (e : IoError) : Except IoError Nat → Script IoError World Returned
  | .ok x => do
      let _ ← .attempt (strongReleaseCtrl a ⟨x, size⟩ ctrl)
      .fail e
  | .error _ => .fail e

def afterPayWeak (ctrl : Range) : Except IoError (Nat × Bool) → Script IoError World Unit
  | .ok (prev, false) => if prev = 1 then .atom (deallocRange a ctrl) else pure ()
  | .ok (_, true) => .done (.error Refcount.underflowErr)
  | .error e => .done (.error e)

end Continuations

namespace Phase

/-- One step of the phase is one step of its script. -/
def Plays (a : Allocator) (w : World) (ph : Phase) : Prop :=
  (ph.code a).advance w = ((ph.next a w).1.code a, (ph.next a w).2)

theorem set_plays {off : Nat} {new : BStackWeak} : Plays a w (set off size new) := by
  simp only [Plays, code, setWeakField, Script.attempt_atom, Script.step_bind, Script.done_ok_bind, Script.advance,
    next]
  cases (swap a.stack off (leBytes 8 new.ctrl.start) w).out with
  | error e => rfl
  | ok old =>
      by_cases hnull : leNat old = 0
      · simp only [if_pos hnull]
        rfl
      · simp only [if_neg hnull]
        congr 2
        funext r
        cases r <;> rfl

theorem replace_plays {e : EnumType} {start : Nat} {new : Value} : Plays a w (replace e start new) := by
  simp only [Plays, code, EnumType.replace, Script.attempt_atom, Script.step_bind, Script.done_ok_bind,
    Script.advance, next]
  cases (swap a.stack start (e.image new) w).out with
  | error err => rfl
  | ok old =>
      cases hvalue : e.reconstruct old with
      | ok v => simp only [hvalue, Script.pure_eq]
      | error err => simp only [hvalue, Script.pure_eq]

theorem locate_plays (hg : (locate σ).Grounded a w) : Plays a w (locate σ) := by
  simp only [Plays, code, upgrade_advance, next]
  cases hout : (getInto a.stack σ.fetched.start σ.fetched.len w).out with
  | error e => rfl
  | ok bytes =>
      cases hdecode : σ.decode bytes with
      | error out => simp only [hdecode]
      | ok target =>
          obtain ⟨ctrl, size⟩ := target
          obtain ⟨o, hwf, rfl, rfl⟩ := hg bytes ctrl size hout hdecode
          simp only [hdecode, upgrade_code hwf]
          rfl

theorem load_plays : Plays a w (load σ ctrl size) := by
  have hcode : (load σ ctrl size).code a = .step (readU64 a.stack (ctrl.start + CTRL_STRONG_OFFSET)) fun out =>
      .attempt (afterLoad a ctrl size out) >>= wrapUp a σ ctrl := rfl
  rw [Plays, hcode, Script.advance, next]
  cases (readU64 a.stack (ctrl.start + CTRL_STRONG_OFFSET) w).out with
  | error e => exact Prod.ext (settle_code σ ctrl (.error e)).symm rfl
  | ok cur =>
      by_cases hzero : cur = 0
      · simp only [afterLoad, if_pos hzero]
        rfl
      · simp only [afterLoad, if_neg hzero]
        rfl

theorem bump_plays : Plays a w (bump σ ctrl size) := by
  have hcode : (bump σ ctrl size).code a = .step (process a.stack (ctrl.start + CTRL_STRONG_OFFSET)
      (ctrl.start + CTRL_STRONG_OFFSET + 8) Refcount.bumpCounter) fun out =>
      .attempt (afterBump a ctrl size out) >>= wrapUp a σ ctrl := rfl
  rw [Plays, hcode, Script.advance, next]
  rcases (process a.stack (ctrl.start + CTRL_STRONG_OFFSET) (ctrl.start + CTRL_STRONG_OFFSET + 8)
    Refcount.bumpCounter w).out with e | ⟨_ | _, _ | _⟩
  · exact Prod.ext (settle_code σ ctrl (.error e)).symm rfl
  · rfl
  · exact Prod.ext (settle_code σ ctrl (.error _)).symm rfl
  · rfl
  · exact Prod.ext (settle_code σ ctrl (.error _)).symm rfl

theorem forward_plays : Plays a w (forward σ ctrl size) := by
  have hcode : (forward σ ctrl size).code a = .step (readU64 a.stack (ctrl.start + CTRL_DATA_OFFSET)) fun out =>
      .attempt (afterForward a ctrl size out) >>= wrapUp a σ ctrl := rfl
  rw [Plays, hcode, Script.advance, next]
  cases (readU64 a.stack (ctrl.start + CTRL_DATA_OFFSET) w).out with
  | error e => rfl
  | ok x => rfl

theorem unclaim_plays {e : IoError} (hg : (unclaim σ ctrl size e).Grounded a w) :
    Plays a w (unclaim σ ctrl size e) := by
  obtain ⟨o, hwf, rfl⟩ := hg
  have hcode : (unclaim σ o.ctrl size e).code a = .step (process a.stack (o.ctrl.start + CTRL_STRONG_OFFSET)
      (o.ctrl.start + CTRL_STRONG_OFFSET + 8) (Refcount.subCounter 1)) fun out =>
      .attempt (afterUnclaim a o.ctrl size e out) >>= wrapUp a σ o.ctrl := by
    simp only [code, BStackWeak.unclaim, Refcount.fetchSub, fetchWith_strong hwf]
    rfl
  rw [Plays, hcode, Script.advance, next]
  rcases (process a.stack (o.ctrl.start + CTRL_STRONG_OFFSET) (o.ctrl.start + CTRL_STRONG_OFFSET + 8)
    (Refcount.subCounter 1) w).out with e' | ⟨prev, _ | _⟩
  · exact Prod.ext (settle_code σ o.ctrl (.error e')).symm rfl
  · by_cases hlast : prev = 1
    · simp only [afterUnclaim, if_pos hlast]
      rfl
    · simp only [afterUnclaim, if_neg hlast]
      exact Prod.ext (settle_code σ o.ctrl (.error e)).symm rfl
  · exact Prod.ext (settle_code σ o.ctrl (.error _)).symm rfl

theorem retry_plays {e : IoError} : Plays a w (retry σ ctrl size e) := by
  have hcode : (retry σ ctrl size e).code a = .step (readU64 a.stack (ctrl.start + CTRL_DATA_OFFSET)) fun out =>
      .attempt (afterRetry a ctrl size e out) >>= wrapUp a σ ctrl := rfl
  rw [Plays, hcode, Script.advance, next]
  cases (readU64 a.stack (ctrl.start + CTRL_DATA_OFFSET) w).out with
  | error e' => exact Prod.ext (settle_code σ ctrl (.error e)).symm rfl
  | ok x =>
      refine Prod.ext ?_ rfl
      exact attempt_then_fail (strongReleaseCtrl a ⟨x, size⟩ ctrl) e (wrapUp a σ ctrl)

theorem releasing_plays {code : Script IoError World Unit} {e : IoError}
    (hg : (releasing σ ctrl code e).Grounded a w) : Plays a w (releasing σ ctrl code e) := by
  rw [Plays, Phase.code, advance_attempt hg, next]
  cases hnext : (code.advance w).1 with
  | done out =>
      refine Prod.ext ?_ rfl
      exact (settle_code σ ctrl (.error e)).symm
  | step c k => rfl

theorem dropStrong_plays {h : BStackRc} (hg : (dropStrong h).Grounded a w) : Plays a w (dropStrong h) := by
  have hwf : WellFormed h := hg
  simp only [Plays, code, drop_code hwf, dropStrongCode, Script.step_bind, Script.advance, next]
  rcases (process a.stack (h.ctrl.start + CTRL_STRONG_OFFSET) (h.ctrl.start + CTRL_STRONG_OFFSET + 8)
    (Refcount.subCounter 1) w).out with e | ⟨prev, _ | _⟩
  · rfl
  · by_cases hlast : prev = 1
    · simp only [if_pos hlast]
    · simp only [if_neg hlast]
      rfl
  · rfl

theorem freeData_plays {h : BStackRc} (hg : (freeData h).Grounded a w) : Plays a w (freeData h) := by
  have hwf : WellFormed h := hg
  simp only [Plays, code, freeDataCode, Script.step_bind, Script.advance, next]
  cases (deallocRange a h.data w).out with
  | error e => rfl
  | ok u =>
      refine Prod.ext ?_ rfl
      show (dropWeakCode a h .nothing >>= _) = _
      rw [← releaseWeak_code hwf]
      exact handle_code _

theorem payWeak_plays {payer : Payer} (hg : (payWeak ctrl payer).Grounded a w) : Plays a w (payWeak ctrl payer) := by
  obtain ⟨o, hwf, rfl⟩ := hg
  have hcode : (payWeak o.ctrl payer).code a = .step (process a.stack (o.ctrl.start + CTRL_WEAK_OFFSET)
      (o.ctrl.start + CTRL_WEAK_OFFSET + 8) (Refcount.subCounter 1)) fun out =>
      .attempt (afterPayWeak a o.ctrl out) >>= fun r => .lift (payer.finish r) := by
    simp only [code, releaseWeak, counterOff_weak hwf, Refcount.fetchSub, Script.lift_bind, Script.done_ok_bind,
      fetchWith_weak hwf]
    rfl
  rw [Plays, hcode, Script.advance, next]
  rcases (process a.stack (o.ctrl.start + CTRL_WEAK_OFFSET) (o.ctrl.start + CTRL_WEAK_OFFSET + 8)
    (Refcount.subCounter 1) w).out with e | ⟨prev, _ | _⟩
  · rfl
  · by_cases hlast : prev = 1
    · simp only [afterPayWeak, if_pos hlast]
      rfl
    · simp only [afterPayWeak, if_neg hlast]
      rfl
  · rfl

theorem next_code {ph : Phase} (hg : ph.Grounded a w) :
    (ph.code a).advance w = ((ph.next a w).1.code a, (ph.next a w).2) := by
  cases ph with
  | set off size new => exact set_plays
  | replace e start new => exact replace_plays
  | locate σ => exact locate_plays hg
  | load σ ctrl size => exact load_plays
  | bump σ ctrl size => exact bump_plays
  | forward σ ctrl size => exact forward_plays
  | unclaim σ ctrl size e => exact unclaim_plays hg
  | retry σ ctrl size e => exact retry_plays
  | releasing σ ctrl code e => exact releasing_plays hg
  | dropStrong h => exact dropStrong_plays hg
  | freeData h => exact freeData_plays hg
  | payWeak ctrl payer => exact payWeak_plays hg
  | freeCtrl ctrl payer => rfl
  | done out => rfl

end Phase

theorem dropWeak_code (h : BStackWeak) : (Phase.payWeak h.ctrl .handle).code a =
    h.drop a >>= fun r => .done (.ok (Handed.ofReturned r)) :=
  (handle_code (releaseWeak a h.ctrl)).symm

/-- In a run every call makes the steps of its script. -/
theorem Inv.next_code {os : List BStackRc} {slots : List Slot} {firm : Slot → Prop} {exact : Prop} {s : State}
    {leaked : BStackRc → Ledger} (hi : Inv a os slots firm exact s leaked) (hf : Family os) (hl : Layout os slots)
    {t : Access} (ht : t ∈ s.calls) :
    (t.phase.code a).advance s.world = ((t.phase.next a s.world).1.code a, (t.phase.next a s.world).2) := by
  refine Phase.next_code ?_
  have hsound := hi.sound t ht
  revert hsound
  cases t.phase with
  | locate σ =>
      intro hσ bytes ctrl size hout hdecode
      rw [getInto_run hi.quiet (hi.inside σ hσ)] at hout
      cases hout
      obtain ⟨o, ho, hctrl, hsize⟩ := hi.named σ hσ ctrl size ((Slot.decode_fetched hl hσ).mp hdecode)
      exact ⟨o, hf.wf o ho, hctrl, hsize⟩
  | unclaim σ ctrl size e =>
      rintro ⟨-, o, ho, hctrl, -⟩
      exact ⟨o, hf.wf o ho, hctrl⟩
  | releasing σ ctrl code e =>
      rintro ⟨-, o, ho, rfl, data, rfl⟩
      rw [Phase.Grounded, strongReleaseCtrl_code (hf.wf o ho)]
      exact trivial
  | dropStrong h => exact hf.wf h
  | freeData h => exact hf.wf h
  | payWeak ctrl payer =>
      rintro ⟨⟨o, ho, hctrl⟩, -⟩
      exact ⟨o, hf.wf o ho, hctrl⟩
  | _ => exact fun _ => trivial

end WeakSlot

end BStackRaii
