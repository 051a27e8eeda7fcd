import BStackRaii.Proof.Rc.Counters
/-!
# The calls as program counters

`Pc` names the points a call on an object can stand at, and `Pc.code` is the script that is left
there. `Pc.advance` is the step lemma: one atomic step takes a call from one point to another, and
the file from agreeing with what the calls hold before to agreeing with what they hold afterwards.
-/

namespace BStackRaii

section Code

variable (a : Allocator) (o : BStackRc)

def freeCtrlCode (r : Returned) : Script IoError World Returned :=
  .step (deallocRange a o.ctrl) fun
    | .ok () => .done (.ok r)
    | .error e => .done (.error e)

def dropWeakCode (r : Returned) : Script IoError World Returned :=
  .step (process a.stack (o.ctrl.start + CTRL_WEAK_OFFSET) (o.ctrl.start + CTRL_WEAK_OFFSET + 8)
    (Refcount.subCounter 1)) fun
    | .ok (prev, false) => if prev = 1 then freeCtrlCode a o r else .done (.ok r)
    | .ok (_, true) => .done (.error Refcount.underflowErr)
    | .error e => .done (.error e)

/-- Free the data block, give up the phantom, and return `r`. -/
def freeDataCode (r : Returned) : Script IoError World Returned :=
  .step (deallocRange a o.data) fun
    | .ok () => dropWeakCode a o r
    | .error e => .done (.error e)

def dropStrongCode : Script IoError World Returned :=
  .step (process a.stack (o.ctrl.start + CTRL_STRONG_OFFSET) (o.ctrl.start + CTRL_STRONG_OFFSET + 8)
    (Refcount.subCounter 1)) fun
    | .ok (prev, false) => if prev = 1 then freeDataCode a o .nothing else .done (.ok .nothing)
    | .ok (_, true) => .done (.error Refcount.underflowErr)
    | .error e => .done (.error e)

def moveReadCode : Script IoError World Returned :=
  .step (getInto a.stack o.data.start o.data.len) fun
    | .ok _ => freeDataCode a o .fields
    | .error e => .done (.error e)

def tryMoveCode : Script IoError World Returned :=
  .step (compareSwap a.stack (o.ctrl.start + CTRL_STRONG_OFFSET) (leBytes 8 1) (leBytes 8 0)) fun
    | .ok true => moveReadCode a o
    | .ok false => .done (.ok (.strong o))
    | .error e => .done (.error e)

def cloneStrongCode : Script IoError World Returned :=
  .step (process a.stack (o.ctrl.start + CTRL_STRONG_OFFSET) (o.ctrl.start + CTRL_STRONG_OFFSET + 8)
    (Refcount.addCounter 1)) fun
    | .ok (_, false) => .done (.ok (.strong o))
    | .ok (_, true) => .done (.error Refcount.overflowErr)
    | .error e => .done (.error e)

def cloneWeakCode : Script IoError World Returned :=
  .step (process a.stack (o.ctrl.start + CTRL_WEAK_OFFSET) (o.ctrl.start + CTRL_WEAK_OFFSET + 8)
    (Refcount.addCounter 1)) fun
    | .ok (_, false) => .done (.ok (.weak ⟨o.ctrl⟩))
    | .ok (_, true) => .done (.error Refcount.overflowErr)
    | .error e => .done (.error e)

def upgradeReadCode : Script IoError World Returned :=
  .step (readU64 a.stack (o.ctrl.start + CTRL_DATA_OFFSET)) fun
    | .ok x => .done (.ok (.strong ⟨⟨x, o.data.len⟩, o.ctrl⟩))
    | .error e => BStackWeak.unclaim a o.data.len ⟨o.ctrl⟩ (o.ctrl.start + CTRL_STRONG_OFFSET)
        (o.ctrl.start + CTRL_DATA_OFFSET) e

def upgradeBumpCode : Script IoError World Returned :=
  .step (process a.stack (o.ctrl.start + CTRL_STRONG_OFFSET) (o.ctrl.start + CTRL_STRONG_OFFSET + 8)
    Refcount.bumpCounter) fun
    | .ok (some _, false) => upgradeReadCode a o
    | .ok (none, false) => .done (.ok .nothing)
    | .ok (_, true) => .done (.error Refcount.overflowErr)
    | .error e => .done (.error e)

def upgradeLoadCode : Script IoError World Returned :=
  .step (readU64 a.stack (o.ctrl.start + CTRL_STRONG_OFFSET)) fun
    | .ok cur => if cur = 0 then .done (.ok .nothing) else upgradeBumpCode a o
    | .error e => .done (.error e)

end Code

/-! ### The scripts of the operations -/

section Entry

variable {a : Allocator} {o : BStackRc}

theorem counterOff_ok {base field : Nat} (hbase : 0 < base) (h : base + field < 2 ^ 64) :
    counterOff base field = .ok (base + field) := by
  simp only [counterOff, checkedOff_ok h]
  exact fromField_ok (Nat.add_pos_left hbase _)

theorem fetchWith_bind {α : Type} {k off : Nat} (h : off + 8 < 2 ^ 64)
    (update : List UInt8 → List UInt8 × Nat × Bool) (refused : IoError)
    (f : Nat → Script IoError World α) :
    (Refcount.fetchWith update refused k off >>= f : Script IoError World α) =
      .step (process k off (off + 8) update) fun
        | .ok (prev, false) => f prev
        | .ok (_, true) => .done (.error refused)
        | .error e => .done (.error e) := by
  simp only [Refcount.fetchWith, checkedAdd_ok h, Script.lift_bind, Script.done_ok_bind,
    Script.atom_bind, Script.step_bind]
  congr 1
  funext out
  rcases out with _ | ⟨prev, _ | _⟩ <;> rfl

variable (hwf : WellFormed o)
include hwf

theorem counterOff_strong : counterOff o.ctrl.start CTRL_STRONG_OFFSET =
    .ok (o.ctrl.start + CTRL_STRONG_OFFSET) := by
  have h := hwf.addressable
  simp only [CONTROL_SIZE, CTRL_DATA_OFFSET, HEADER_SIZE] at h
  exact counterOff_ok hwf.placed (by simp only [CTRL_STRONG_OFFSET, HEADER_SIZE]; omega)

theorem counterOff_weak : counterOff o.ctrl.start CTRL_WEAK_OFFSET =
    .ok (o.ctrl.start + CTRL_WEAK_OFFSET) := by
  have h := hwf.addressable
  simp only [CONTROL_SIZE, CTRL_DATA_OFFSET, HEADER_SIZE] at h
  exact counterOff_ok hwf.placed (by simp only [CTRL_WEAK_OFFSET, HEADER_SIZE]; omega)

theorem fetchWith_strong {α : Type} (update : List UInt8 → List UInt8 × Nat × Bool)
    (refused : IoError) (f : Nat → Script IoError World α) :
    (Refcount.fetchWith update refused a.stack (o.ctrl.start + CTRL_STRONG_OFFSET) >>= f :
        Script IoError World α) =
      .step (process a.stack (o.ctrl.start + CTRL_STRONG_OFFSET)
        (o.ctrl.start + CTRL_STRONG_OFFSET + 8) update) fun
        | .ok (prev, false) => f prev
        | .ok (_, true) => .done (.error refused)
        | .error e => .done (.error e) := by
  have h := hwf.addressable
  simp only [CONTROL_SIZE, CTRL_DATA_OFFSET, HEADER_SIZE] at h
  exact fetchWith_bind (by simp only [CTRL_STRONG_OFFSET, HEADER_SIZE]; omega) update refused f

theorem fetchWith_weak {α : Type} (update : List UInt8 → List UInt8 × Nat × Bool)
    (refused : IoError) (f : Nat → Script IoError World α) :
    (Refcount.fetchWith update refused a.stack (o.ctrl.start + CTRL_WEAK_OFFSET) >>= f :
        Script IoError World α) =
      .step (process a.stack (o.ctrl.start + CTRL_WEAK_OFFSET)
        (o.ctrl.start + CTRL_WEAK_OFFSET + 8) update) fun
        | .ok (prev, false) => f prev
        | .ok (_, true) => .done (.error refused)
        | .error e => .done (.error e) := by
  have h := hwf.addressable
  simp only [CONTROL_SIZE, CTRL_DATA_OFFSET, HEADER_SIZE] at h
  exact fetchWith_bind (by simp only [CTRL_WEAK_OFFSET, HEADER_SIZE]; omega) update refused f

theorem tryClone_code : o.tryClone a = cloneStrongCode a o := by
  simp only [BStackRc.tryClone, BStackRc.strongOffset, counterOff_strong hwf, Refcount.fetchAdd,
    Script.lift_bind, Script.done_ok_bind, fetchWith_strong hwf]
  rfl

theorem downgrade_code : o.downgrade a = cloneWeakCode a o := by
  simp only [BStackRc.downgrade, counterOff_weak hwf, Refcount.fetchAdd, Script.lift_bind,
    Script.done_ok_bind, fetchWith_weak hwf]
  rfl

theorem weakTryClone_code : BStackWeak.tryClone a ⟨o.ctrl⟩ = cloneWeakCode a o := by
  simp only [BStackWeak.tryClone, counterOff_weak hwf, Refcount.fetchAdd, Script.lift_bind,
    Script.done_ok_bind, fetchWith_weak hwf]
  rfl

theorem releaseWeak_code (r : Returned) :
    (releaseWeak a o.ctrl >>= fun _ => pure r : Script IoError World Returned) =
      dropWeakCode a o r := by
  simp only [releaseWeak, counterOff_weak hwf, Refcount.fetchSub, Script.lift_bind,
    Script.done_ok_bind, fetchWith_weak hwf, Script.step_bind, dropWeakCode]
  congr 1
  funext out
  rcases out with _ | ⟨prev, _ | _⟩
  · rfl
  · by_cases hlast : prev = 1
    · simp only [if_pos hlast, Script.atom_bind]
      unfold freeCtrlCode
      congr 1
      funext out
      cases out <;> rfl
    · simp only [if_neg hlast]
      rfl
  · rfl

theorem freeData_code (r : Returned) :
    (dropBlock a o.data >>= fun _ => releaseWeak a o.ctrl >>= fun _ => pure r :
      Script IoError World Returned) = freeDataCode a o r := by
  simp only [dropBlock, releaseWeak_code hwf, Script.atom_bind, freeDataCode]
  congr 1
  funext out
  cases out <;> rfl

theorem weakDrop_code : BStackWeak.drop a ⟨o.ctrl⟩ = dropWeakCode a o .nothing :=
  releaseWeak_code hwf .nothing

theorem drop_code : o.drop a = dropStrongCode a o := by
  simp only [BStackRc.drop, strongReleaseCtrl, counterOff_strong hwf, Refcount.fetchSub,
    Script.lift_bind, Script.done_ok_bind, fetchWith_strong hwf, Script.step_bind, dropStrongCode]
  congr 1
  funext out
  rcases out with _ | ⟨prev, _ | _⟩
  · rfl
  · by_cases hlast : prev = 1
    · simp only [if_pos hlast, Script.bind_assoc, freeData_code hwf]
    · simp only [if_neg hlast]
      rfl
  · rfl

/-- The tail of `try_move`, the release of the phantom written out. -/
theorem moveTail_code : ((do
    let weakOff ← .lift (counterOff o.ctrl.start CTRL_WEAK_OFFSET)
    let prev ← Refcount.fetchSub a.stack weakOff 1
    if prev = 1 then .atom (deallocRange a o.ctrl) else pure ()
    pure .fields) : Script IoError World Returned) = dropWeakCode a o .fields := by
  simp only [counterOff_weak hwf, Refcount.fetchSub, Script.lift_bind, Script.done_ok_bind,
    fetchWith_weak hwf, dropWeakCode]
  congr 1
  funext out
  rcases out with _ | ⟨prev, _ | _⟩
  · rfl
  · by_cases hlast : prev = 1
    · simp only [if_pos hlast, Script.atom_bind]
      unfold freeCtrlCode
      congr 1
      funext out
      cases out <;> rfl
    · simp only [if_neg hlast]
      rfl
  · rfl

theorem tryMove_code : o.tryMove a = tryMoveCode a o := by
  simp only [BStackRc.tryMove, BStackRc.strongOffset, counterOff_strong hwf, Script.lift_bind,
    Script.done_ok_bind, Refcount.cas, Script.atom_bind, tryMoveCode]
  congr 1
  funext out
  rcases out with _ | _ | _
  · rfl
  · rfl
  · have htail := moveTail_code (a := a) hwf
    simp only [Script.done_ok_bind, Bool.not_true, Bool.false_eq_true, if_false, bstackMove,
      Script.atom_bind, moveReadCode]
    simp only [Script.step_bind, Script.lift_bind] at htail ⊢
    congr 1
    funext out
    cases out with
    | error e => rfl
    | ok bytes =>
        simp only [Script.done_ok_bind, Script.atom_bind, freeDataCode]
        congr 1
        funext out
        cases out with
        | error e => rfl
        | ok u => exact htail

theorem upgrade_code : BStackWeak.upgrade a o.data.len ⟨o.ctrl⟩ = upgradeLoadCode a o := by
  have h := hwf.addressable
  simp only [CONTROL_SIZE, CTRL_DATA_OFFSET, HEADER_SIZE] at h
  have hforward : checkedOff o.ctrl.start CTRL_DATA_OFFSET = .ok (o.ctrl.start + CTRL_DATA_OFFSET) :=
    checkedOff_ok (by simp only [CTRL_DATA_OFFSET, HEADER_SIZE]; omega)
  have hstop : checkedAdd (o.ctrl.start + CTRL_STRONG_OFFSET) 8 =
      .ok (o.ctrl.start + CTRL_STRONG_OFFSET + 8) :=
    checkedAdd_ok (by simp only [CTRL_STRONG_OFFSET, HEADER_SIZE]; omega)
  simp only [BStackWeak.upgrade, counterOff_strong hwf, hforward, Refcount.incrementIfNonzero,
    Refcount.load, Script.lift_bind, Script.done_ok_bind, Script.atom_bind, Script.step_bind,
    upgradeLoadCode]
  congr 1
  funext out
  cases out with
  | error e => rfl
  | ok cur =>
      simp only [Script.done_ok_bind]
      by_cases hzero : cur = 0
      · simp only [if_pos hzero]
        rfl
      · simp only [if_neg hzero, hstop, Script.done_ok_bind, Script.step_bind, upgradeBumpCode]
        congr 1
        funext out
        rcases out with _ | ⟨_ | _, _ | _⟩
        · rfl
        · rfl
        · rfl
        · rfl
        · rfl

end Entry

/-! ### Program counters -/

/-- Where a call stands. The second step of a release returns `r` in the end. -/
inductive Pc
  | cloneStrong
  | downgrade
  | dropStrong
  | freeData
  | tryMove
  | moveRead
  | moveFree
  | cloneWeak
  | dropWeak (r : Returned)
  | freeCtrl (r : Returned)
  | upgradeLoad
  | upgradeBump
  | upgradeRead
  | done (out : Except IoError Returned)

namespace Pc

def code (a : Allocator) (o : BStackRc) : Pc → Script IoError World Returned
  | cloneStrong => cloneStrongCode a o
  | downgrade => cloneWeakCode a o
  | dropStrong => dropStrongCode a o
  | freeData => freeDataCode a o .nothing
  | tryMove => tryMoveCode a o
  | moveRead => moveReadCode a o
  | moveFree => freeDataCode a o .fields
  | cloneWeak => cloneWeakCode a o
  | dropWeak r => dropWeakCode a o r
  | freeCtrl r => freeCtrlCode a o r
  | upgradeLoad => upgradeLoadCode a o
  | upgradeBump => upgradeBumpCode a o
  | upgradeRead => upgradeReadCode a o
  | done out => .done out

def fieldsOf : Returned → Nat
  | .fields => 1
  | .strong _ | .weak _ | .nothing => 0

/-- What a call holds. -/
def share : Pc → Ledger
  | cloneStrong | downgrade | cloneWeak | upgradeLoad | upgradeBump => 0
  | dropStrong | tryMove | upgradeRead => ⟨1, 0, 0, 0, 0⟩
  | freeData | moveRead | moveFree => ⟨0, 1, 0, 0, 0⟩
  | dropWeak r => ⟨0, 0, 1, 0, fieldsOf r⟩
  | freeCtrl r => ⟨0, 0, 0, 1, fieldsOf r⟩
  | done (.ok (.strong _)) => ⟨1, 0, 0, 0, 0⟩
  | done (.ok (.weak _)) => ⟨0, 0, 1, 0, 0⟩
  | done (.ok .fields) => ⟨0, 0, 0, 0, 1⟩
  | done (.ok .nothing) => 0
  | done (.error _) => 0

def BorrowsStrong : Pc → Prop
  | cloneStrong | downgrade => True
  | _ => False

def BorrowsWeak : Pc → Prop
  | cloneWeak | upgradeLoad | upgradeBump => True
  | _ => False

/-- What a call can return: handles of the object, and no error but an overflow. -/
def Sound (o : BStackRc) : Pc → Prop
  | done (.ok (.strong h)) => h = o
  | done (.ok (.weak h)) => h = ⟨o.ctrl⟩
  | done (.error e) => e = Refcount.overflowErr
  | dropWeak r | freeCtrl r => r = .nothing ∨ r = .fields
  | _ => True

/-- One atomic step `c` of a call, which stood at `pc` and stands at `pc'` now. `B` is what everyone
else holds. -/
structure Moves (a : Allocator) (o : BStackRc) (B : Ledger) (freed : List (Nat × Range)) (w : World)
    (pc pc' : Pc) {β : Type} (c : Io β) (k : Except IoError β → Script IoError World Returned) :
    Prop where
  code : k (c w).out = pc'.code a o
  agrees : Agrees a o (pc'.share + B) (freed ++ newlyFreed w (c w).final) (c w).final
  sound : pc'.Sound o
  strong : pc'.BorrowsStrong → pc.BorrowsStrong
  weak : pc'.BorrowsWeak → pc.BorrowsWeak
  data : (a.stack, o.data) ∈ newlyFreed w (c w).final → 0 < pc.share.last
  ctrl : (a.stack, o.ctrl) ∈ newlyFreed w (c w).final → 0 < pc.share.closing

end Pc

theorem newlyFreed_of_eq {w w' : World} (h : w'.freed = w.freed) : newlyFreed w w' = [] := by
  rw [newlyFreed, h, List.drop_length]

@[simp] theorem newlyFreed_release (w : World) (k : Nat) (r : Range) :
    newlyFreed w (w.release k r) = [(k, r)] := by
  rw [newlyFreed, World.freed_release, List.drop_left]

section Advance

variable {a : Allocator} {o : BStackRc} {B : Ledger} {freed : List (Nat × Range)} {w : World}
variable {β : Type} {c : Io β} {k : Except IoError β → Script IoError World Returned}
variable (hwf : WellFormed o)

namespace Pc

/-- A step that frees nothing. -/
theorem Moves.of_run {pc pc' : Pc} {out : Except IoError β} {w' : World} {cs : List World}
    (hrun : c w = ⟨out, w', cs⟩) (hfreed : w'.freed = w.freed) (hcode : k out = pc'.code a o)
    (hA : Agrees a o (pc'.share + B) freed w') (hsound : pc'.Sound o)
    (hstrong : pc'.BorrowsStrong → pc.BorrowsStrong) (hweak : pc'.BorrowsWeak → pc.BorrowsWeak) :
    Moves a o B freed w pc pc' c k where
  code := by rw [hrun]; exact hcode
  agrees := by
    rw [hrun, newlyFreed_of_eq hfreed, List.append_nil]
    exact hA
  sound := hsound
  strong := hstrong
  weak := hweak
  data := by
    rw [hrun, newlyFreed_of_eq hfreed]
    exact fun h => (List.not_mem_nil h).elim
  ctrl := by
    rw [hrun, newlyFreed_of_eq hfreed]
    exact fun h => (List.not_mem_nil h).elim

/-- A step that frees `r`. -/
theorem Moves.of_free {pc pc' : Pc} {r : Range} {k : Except IoError Unit → Script IoError World Returned}
    (hrun : deallocRange a r w = ⟨.ok (), w.release a.stack r, [w]⟩) (hcode : k (.ok ()) = pc'.code a o)
    (hA : Agrees a o (pc'.share + B) (freed ++ [(a.stack, r)]) (w.release a.stack r))
    (hsound : pc'.Sound o) (hstrong : pc'.BorrowsStrong → pc.BorrowsStrong)
    (hweak : pc'.BorrowsWeak → pc.BorrowsWeak) (hdata : r = o.data → 0 < pc.share.last)
    (hctrl : r = o.ctrl → 0 < pc.share.closing) :
    Moves a o B freed w pc pc' (deallocRange a r) k where
  code := by rw [hrun]; exact hcode
  agrees := by
    rw [hrun, newlyFreed_release]
    exact hA
  sound := hsound
  strong := hstrong
  weak := hweak
  data := by
    rw [hrun, newlyFreed_release, List.mem_singleton]
    exact fun h => hdata (congrArg Prod.snd h).symm
  ctrl := by
    rw [hrun, newlyFreed_release, List.mem_singleton]
    exact fun h => hctrl (congrArg Prod.snd h).symm

include hwf

theorem advance_cloneStrong (hA : Agrees a o B freed w) (hB : 0 < B.strong)
    (hcode : cloneStrong.code a o = .step c k) : ∃ pc', Moves a o B freed w cloneStrong pc' c k := by
  cases hcode
  obtain ⟨prev, overflow, w', hrun, hfreed, hA'⟩ := hA.add_strong hwf hB
  cases overflow
  case false => exact ⟨done (.ok (.strong o)), .of_run hrun hfreed rfl hA' rfl False.elim False.elim⟩
  case true =>
    exact ⟨done (.error Refcount.overflowErr),
      .of_run hrun hfreed rfl ((zero_add B).symm ▸ hA') rfl False.elim False.elim⟩

theorem advance_addWeak {pc : Pc} (hA : Agrees a o B freed w) (hB : 0 < B.watchers)
    (hcode : cloneWeakCode a o = .step c k) : ∃ pc', Moves a o B freed w pc pc' c k := by
  cases hcode
  obtain ⟨prev, overflow, w', hrun, hfreed, hA'⟩ := hA.add_weak hwf hB
  cases overflow
  case false =>
    exact ⟨done (.ok (.weak ⟨o.ctrl⟩)), .of_run hrun hfreed rfl hA' rfl False.elim False.elim⟩
  case true =>
    exact ⟨done (.error Refcount.overflowErr),
      .of_run hrun hfreed rfl ((zero_add B).symm ▸ hA') rfl False.elim False.elim⟩

theorem advance_dropStrong (hA : Agrees a o (dropStrong.share + B) freed w)
    (hcode : dropStrong.code a o = .step c k) : ∃ pc', Moves a o B freed w dropStrong pc' c k := by
  cases hcode
  obtain ⟨prev, w', hrun, hfreed, hA'⟩ := hA.sub_strong hwf
  by_cases hlast : prev = 1
  · rw [if_pos hlast] at hA'
    exact ⟨freeData, .of_run hrun hfreed (if_pos hlast) hA' trivial False.elim False.elim⟩
  · rw [if_neg hlast] at hA'
    exact ⟨done (.ok .nothing),
      .of_run hrun hfreed (if_neg hlast) ((zero_add B).symm ▸ hA') trivial False.elim False.elim⟩

theorem advance_freeData (hA : Agrees a o (freeData.share + B) freed w)
    (hcode : freeData.code a o = .step c k) : ∃ pc', Moves a o B freed w freeData pc' c k := by
  cases hcode
  obtain ⟨hrun, hA'⟩ := hA.free_data hwf (Nat.zero_le 1)
  exact ⟨dropWeak .nothing, .of_free hrun rfl hA' (.inl rfl) False.elim False.elim
    (fun _ => Nat.one_pos) fun h => absurd h hwf.distinct⟩

theorem advance_tryMove (hA : Agrees a o (tryMove.share + B) freed w)
    (hcode : tryMove.code a o = .step c k) : ∃ pc', Moves a o B freed w tryMove pc' c k := by
  cases hcode
  obtain ⟨unwrapped, w', hrun, hfreed, hA'⟩ := hA.swap_strong hwf
  cases unwrapped
  case false =>
    exact ⟨done (.ok (.strong o)), .of_run hrun hfreed rfl hA' rfl False.elim False.elim⟩
  case true => exact ⟨moveRead, .of_run hrun hfreed rfl hA' trivial False.elim False.elim⟩

omit hwf in
theorem advance_moveRead (hA : Agrees a o (moveRead.share + B) freed w)
    (hcode : moveRead.code a o = .step c k) : ∃ pc', Moves a o B freed w moveRead pc' c k := by
  cases hcode
  obtain ⟨bytes, hrun⟩ := hA.load_data (Nat.add_pos_left Nat.one_pos _)
  exact ⟨moveFree, .of_run hrun rfl rfl hA trivial False.elim False.elim⟩

theorem advance_moveFree (hA : Agrees a o (moveFree.share + B) freed w)
    (hcode : moveFree.code a o = .step c k) : ∃ pc', Moves a o B freed w moveFree pc' c k := by
  cases hcode
  obtain ⟨hrun, hA'⟩ := hA.free_data hwf (Nat.le_refl 1)
  exact ⟨dropWeak .fields, .of_free hrun rfl hA' (.inr rfl) False.elim False.elim
    (fun _ => Nat.one_pos) fun h => absurd h hwf.distinct⟩

theorem advance_dropWeak {r : Returned} (hr : (dropWeak r).Sound o)
    (hA : Agrees a o ((dropWeak r).share + B) freed w)
    (hcode : (dropWeak r).code a o = .step c k) : ∃ pc', Moves a o B freed w (dropWeak r) pc' c k := by
  cases hcode
  obtain ⟨prev, w', hrun, hfreed, hA'⟩ := hA.sub_weak hwf
  by_cases hlast : prev = 1
  · rw [if_pos hlast] at hA'
    exact ⟨freeCtrl r, .of_run hrun hfreed (if_pos hlast) hA' hr False.elim False.elim⟩
  · rw [if_neg hlast] at hA'
    refine ⟨done (.ok r), .of_run hrun hfreed (if_neg hlast) ?_ ?_ False.elim False.elim⟩
    all_goals rcases hr with rfl | rfl
    · exact hA'
    · exact hA'
    · exact trivial
    · exact trivial

theorem advance_freeCtrl {r : Returned} (hr : (freeCtrl r).Sound o)
    (hA : Agrees a o ((freeCtrl r).share + B) freed w)
    (hcode : (freeCtrl r).code a o = .step c k) : ∃ pc', Moves a o B freed w (freeCtrl r) pc' c k := by
  cases hcode
  obtain ⟨hrun, hA'⟩ := hA.free_ctrl hwf
  refine ⟨done (.ok r), .of_free hrun rfl ?_ ?_ False.elim False.elim
    (fun h => absurd h.symm hwf.distinct) fun _ => Nat.one_pos⟩
  all_goals rcases hr with rfl | rfl
  · exact hA'
  · exact hA'
  · exact trivial
  · exact trivial

theorem advance_upgradeLoad (hA : Agrees a o B freed w) (hB : 0 < B.weak)
    (hcode : upgradeLoad.code a o = .step c k) :
    ∃ pc', Moves a o B freed w upgradeLoad pc' c k := by
  cases hcode
  have hrun := hA.load_strong hwf (Ledger.keep_pos (Ledger.watchers_of_weak hB))
  by_cases hzero : B.strong = 0
  · exact ⟨done (.ok .nothing),
      .of_run hrun rfl (if_pos hzero) ((zero_add B).symm ▸ hA) trivial False.elim False.elim⟩
  · exact ⟨upgradeBump,
      .of_run hrun rfl (if_neg hzero) ((zero_add B).symm ▸ hA) trivial False.elim id⟩

theorem advance_upgradeBump (hA : Agrees a o B freed w) (hB : 0 < B.weak)
    (hcode : upgradeBump.code a o = .step c k) :
    ∃ pc', Moves a o B freed w upgradeBump pc' c k := by
  cases hcode
  obtain ⟨result, overflow, w', hrun, hfreed, hA'⟩ := hA.bump_strong hwf (Ledger.keep_pos (Ledger.watchers_of_weak hB))
  cases overflow
  case true =>
    rw [if_pos (.inl rfl)] at hA'
    refine ⟨done (.error Refcount.overflowErr),
      .of_run hrun hfreed ?_ ((zero_add B).symm ▸ hA') rfl False.elim False.elim⟩
    cases result <;> rfl
  case false =>
    cases result with
    | none =>
        rw [if_pos (.inr rfl)] at hA'
        exact ⟨done (.ok .nothing),
          .of_run hrun hfreed rfl ((zero_add B).symm ▸ hA') trivial False.elim False.elim⟩
    | some v =>
        rw [if_neg (by simp)] at hA'
        exact ⟨upgradeRead, .of_run hrun hfreed rfl hA' trivial False.elim False.elim⟩

theorem advance_upgradeRead (hA : Agrees a o (upgradeRead.share + B) freed w)
    (hcode : upgradeRead.code a o = .step c k) :
    ∃ pc', Moves a o B freed w upgradeRead pc' c k := by
  cases hcode
  have hrun := hA.load_forward hwf (Ledger.watchers_of_strong (Nat.add_pos_left Nat.one_pos _))
  exact ⟨done (.ok (.strong o)), .of_run hrun rfl rfl hA rfl False.elim False.elim⟩

/-- The step lemma of a call: from any point, one atomic step leads to a next one. -/
theorem advance (pc : Pc) (hsound : pc.Sound o) (hA : Agrees a o (pc.share + B) freed w)
    (hstrong : pc.BorrowsStrong → 0 < B.strong) (hweak : pc.BorrowsWeak → 0 < B.weak)
    (hcode : pc.code a o = .step c k) : ∃ pc', Moves a o B freed w pc pc' c k := by
  cases pc with
  | cloneStrong => exact advance_cloneStrong hwf (zero_add B ▸ hA) (hstrong trivial) hcode
  | downgrade =>
      exact advance_addWeak hwf (zero_add B ▸ hA) (Ledger.watchers_of_strong (hstrong trivial)) hcode
  | dropStrong => exact advance_dropStrong hwf hA hcode
  | freeData => exact advance_freeData hwf hA hcode
  | tryMove => exact advance_tryMove hwf hA hcode
  | moveRead => exact advance_moveRead hA hcode
  | moveFree => exact advance_moveFree hwf hA hcode
  | cloneWeak =>
      exact advance_addWeak hwf (zero_add B ▸ hA) (Ledger.watchers_of_weak (hweak trivial)) hcode
  | dropWeak r => exact advance_dropWeak hwf hsound hA hcode
  | freeCtrl r => exact advance_freeCtrl hwf hsound hA hcode
  | upgradeLoad => exact advance_upgradeLoad hwf (zero_add B ▸ hA) (hweak trivial) hcode
  | upgradeBump => exact advance_upgradeBump hwf (zero_add B ▸ hA) (hweak trivial) hcode
  | upgradeRead => exact advance_upgradeRead hwf hA hcode
  | done out => cases hcode

end Pc

end Advance

end BStackRaii
