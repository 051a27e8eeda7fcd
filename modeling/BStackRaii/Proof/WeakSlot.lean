import BStackRaii.Proof.WeakSlot.Code
import BStackRaii.Proof.WeakSlot.Protocol
import BStackRaii.Proof.WeakSlot.Schedules
/-!
# What the accessors of weak slots guarantee

The accessors of weak fields are safe in every interleaving, because the lock keeps the slot as it is until its
target is pinned. An enum is read with no lock. Its upgrade gives up the count of the slot when it fails, and a
`replace` may displace the reference, and its drop free the control block, between the two.
-/

namespace BStackRaii

namespace WeakSlot

variable {a : Allocator} {os : List BStackRc} {slots : List Slot} {firm : Slot → Prop} {exact : Prop} {s s' s₀ : State}
  {leaked : BStackRc → Ledger} {o : BStackRc}

/-! ### Weak fields -/

/-- The control block that an upgrade touches next. -/
def Phase.upgrading : Phase → Option Range
  | load _ ctrl _ | bump _ ctrl _ | forward _ ctrl _ | unclaim _ ctrl _ _ | retry _ ctrl _ _
  | releasing _ ctrl _ _ => some ctrl
  | _ => none

namespace State

variable (a : Allocator) (os : List BStackRc) (slots : List Slot) (s : State)

def Live (ctrl : Range) : Prop := ctrl ∈ (s.world.files a.stack).live ∧ (a.stack, ctrl) ∉ s.freed

/-- The slot is null, or its target counts it besides the weak handles and the other slots. -/
def Owns (σ : Slot) : Prop := ∀ ctrl size, σ.target (s.world.files a.stack) = some (ctrl, size) →
  ∃ o ∈ os, o.ctrl = ctrl ∧ s.Live a ctrl ∧ s.weak.count ⟨ctrl⟩ + s.slotsOf a slots o ≤ s.weakCount a o

/-- The weak counter is what the handles and the slots hold, and the control block is freed with the last of them. -/
def Accounted (o : BStackRc) : Prop :=
  if 0 < s.strong.count o + s.weak.count ⟨o.ctrl⟩ + s.slotsOf a slots o then
    s.Live a o.ctrl ∧
      s.weakCount a o = s.weak.count ⟨o.ctrl⟩ + s.slotsOf a slots o + if 0 < s.strong.count o then 1 else 0
  else s.freed.count (a.stack, o.ctrl) = 1

end State

theorem Inv.live (hi : Inv a os slots firm exact s leaked) (ho : o ∈ os) (hk : 0 < (s.total a slots leaked o).keep) :
    s.Live a o.ctrl := by
  have hA := hi.agrees o ho
  have hcount := hA.ctrl_freed
  refine ⟨hA.ctrl_live hk, fun hfreed => ?_⟩
  have hpos := List.count_pos_iff.mpr hfreed
  omega

theorem Inv.owns (hi : Inv a os slots firm exact s leaked) {σ : Slot} (hσ : σ ∈ slots) : s.Owns a os slots σ := by
  intro ctrl size htarget
  obtain ⟨o, ho, rfl, -⟩ := hi.named σ hσ ctrl size htarget
  have hslots := slotsOf_pos (a := a) (s := s) hσ htarget rfl
  have hweak : s.weak.count ⟨o.ctrl⟩ + s.slotsOf a slots o ≤ (s.total a slots leaked o).weak := by
    simp only [State.total, State.handles, Ledger.weak_add]
    omega
  have hk : 0 < (s.total a slots leaked o).keep := Ledger.keep_pos (Ledger.watchers_of_weak (by omega))
  refine ⟨o, ho, rfl, hi.live ho hk, ?_⟩
  have hcount : s.weakCount a o = (s.total a slots leaked o).watchers := (hi.agrees o ho).weak hk
  rw [hcount]
  exact hweak.trans (Nat.le_add_right ..)

/-- Whoever touches the counters of an object keeps its control block. -/
theorem Inv.allocated (hi : Inv a os slots firm exact s leaked) {t : Access} (ht : t ∈ s.calls) {ctrl : Range}
    (h : t.phase.upgrading = some ctrl) : s.Live a ctrl := by
  have hsound := hi.sound t ht
  have hreads := hi.readers t ht
  have hclaims : ∀ o ∈ os, ∀ L : Ledger, 0 < L.strong ∨ 0 < L.last → t.phase.holding = some (o.ctrl, L) →
      s.Live a o.ctrl := by
    intro o ho L hL hholding
    obtain ⟨rest, hcalls⟩ := Multiset.exists_cons_of_mem ht
    refine hi.live ho (Ledger.keep_pos ?_)
    rw [State.total_cons hcalls, Phase.share_self hholding]
    rcases hL with hL | hL
    · exact Ledger.watchers_of_strong (Nat.add_pos_left hL _)
    · exact Ledger.watchers_of_last (Nat.add_pos_left hL _)
  revert hsound hreads hclaims h
  cases t.phase with
  | load σ c size =>
      rintro h ⟨-, o, ho, rfl, -⟩ hreads -
      cases h
      exact hi.live ho ((hreads σ o.ctrl size rfl).2 o ho rfl)
  | bump σ c size =>
      rintro h ⟨-, o, ho, rfl, -⟩ hreads -
      cases h
      exact hi.live ho ((hreads σ o.ctrl size rfl).2 o ho rfl)
  | forward σ c size =>
      rintro h ⟨-, o, ho, rfl, -⟩ - hclaims
      cases h
      exact hclaims o ho _ (.inl Nat.one_pos) rfl
  | unclaim σ c size e =>
      rintro h ⟨-, o, ho, rfl, -⟩ - hclaims
      cases h
      exact hclaims o ho _ (.inl Nat.one_pos) rfl
  | retry σ c size e =>
      rintro h ⟨-, o, ho, rfl, -⟩ - hclaims
      cases h
      exact hclaims o ho _ (.inr Nat.one_pos) rfl
  | releasing σ c code e =>
      rintro h ⟨-, o, ho, rfl, -⟩ - hclaims
      cases h
      exact hclaims o ho _ (.inr Nat.one_pos) rfl
  | _ => exact fun h => nomatch h

/-- Without failures the counters of an idle state are exact. -/
theorem Inv.accounted (hi : Inv a os slots firm True s leaked) (hidle : s.calls = 0) (ho : o ∈ os) :
    s.Accounted a slots o := by
  have hA := hi.agrees o ho
  have htotal : s.total a slots leaked o =
    ⟨s.strong.count o, 0, s.weak.count ⟨o.ctrl⟩ + s.slotsOf a slots o, 0, 0⟩ := by
    rw [State.total, hidle, State.inFlight_zero, (hi.exact trivial).1 o, add_zero, add_zero, State.handles]
  have hwatchers : (s.total a slots leaked o).watchers =
      s.weak.count ⟨o.ctrl⟩ + s.slotsOf a slots o + if 0 < s.strong.count o then 1 else 0 := by
    rw [htotal, Ledger.watchers, Ledger.phantom, add_zero]
  have hclosing : (s.total a slots leaked o).closing = 0 := by rw [htotal]
  rw [State.Accounted]
  split
  · have hk : 0 < (s.total a slots leaked o).keep := by
      refine Ledger.keep_pos ?_
      rw [hwatchers]
      split <;> omega
    refine ⟨hi.live ho hk, ?_⟩
    rw [← hwatchers]
    exact hA.weak hk
  · have hnone : ¬ 0 < (s.total a slots leaked o).watchers := by
      rw [hwatchers]
      split <;> omega
    have hcount := hA.ctrl_freed
    rw [Ledger.keep, if_neg hnone, hclosing] at hcount
    exact hcount

theorem Phase.releases_of_not {ph : Phase} (h : ¬ ∃ ctrl, ph = .payWeak ctrl .setter) (ph' : Phase) :
    ph.releases ph' = 0 := by
  cases ph with
  | payWeak ctrl payer =>
      cases payer with
      | setter => exact absurd ⟨ctrl, rfl⟩ h
      | handle => rfl
      | temporary e => rfl
  | _ => rfl

theorem deliver_released (s : State) (out : Except IoError Handed) : (s.deliver out).released = s.released := by
  unfold State.deliver
  split <;> rfl

/-- `set_weak_field` releases what it displaced. -/
theorem Inv.pays (hi : Inv a os slots firm exact s leaked) (hf : Family os) {ctrl : Range} {guard : Guard}
    {rest : Multiset Access} (hcalls : s.calls = ⟨.payWeak ctrl .setter, guard⟩ ::ₘ rest) :
    ∃ o ∈ os, (s.act a (.payWeak ctrl .setter) guard rest s.world).released = s.released + {o.ctrl.start} ∧
      (s.act a (.payWeak ctrl .setter) guard rest s.world).weakCount a o + 1 = s.weakCount a o := by
  obtain ⟨⟨o, ho, rfl⟩, -⟩ := hi.sound ⟨.payWeak ctrl .setter, guard⟩ (hcalls ▸ Multiset.mem_cons_self _ _)
  have hA := hi.agrees o ho
  rw [State.total_cons hcalls, Phase.share_self rfl] at hA
  obtain ⟨w', hrun, hnone, ht, hA'⟩ := sub_weak (hf.wf o ho) hA
  refine ⟨o, ho, ?_⟩
  have hbefore : s.weakCount a o = 1 + (s.others a slots leaked rest o).watchers := by
    rw [← watchers_weak]
    exact hA.weak (Ledger.keep_pos (Ledger.watchers_of_weak (Nat.add_pos_left Nat.one_pos _)))
  by_cases hone : (s.world.files a.stack).bytes.word (o.ctrl.start + CTRL_WEAK_OFFSET) = 1
  · have hnext : (Phase.payWeak o.ctrl .setter).next a s.world = (.freeCtrl o.ctrl .setter, w') := by
      simp only [Phase.next, hrun, if_pos hone]
    rw [if_pos hone] at hA'
    rw [State.act_eq hnext]
    have hafter := hA'.weak (by rw [keep_closing]; omega)
    rw [watchers_closing] at hafter
    refine ⟨rfl, ?_⟩
    rw [hbefore, Nat.add_comm]
    exact congrArg (1 + ·) hafter
  · have hnext : (Phase.payWeak o.ctrl .setter).next a s.world = (.done (.ok .nothing), w') := by
      simp only [Phase.next, hrun, if_neg hone, Payer.finish]
    rw [if_neg hone] at hA'
    rw [State.act_eq hnext]
    have hne : s.weakCount a o ≠ 1 := hone
    have hafter := hA'.weak (Ledger.keep_pos (by omega))
    refine ⟨rfl, ?_⟩
    rw [hbefore, Nat.add_comm]
    exact congrArg (1 + ·) hafter

theorem Inv.releases (hi : Inv a os slots firm exact s leaked) (hf : Family os) {act : Act}
    (hstep : Step a os slots act s s') : s'.released = s.released ∨ ∃ o ∈ os,
      s'.released = s.released + {o.ctrl.start} ∧ s'.weakCount a o + 1 = s.weakCount a o := by
  cases hstep with
  | atomic ph guard rest hcalls hguard hrunning =>
      by_cases hpays : ∃ ctrl, ph = .payWeak ctrl .setter
      · obtain ⟨ctrl, rfl⟩ := hpays
        exact .inr (hi.pays hf hcalls)
      · left
        exact (congrArg (s.released + ·) (Phase.releases_of_not hpays _)).trans (add_zero _)
  | fail ph guard rest hcalls hguard hrunning =>
      left
      by_cases hpays : ∃ ctrl, ph = .payWeak ctrl .setter
      · obtain ⟨ctrl, rfl⟩ := hpays
        have hnext : (Phase.payWeak ctrl .setter).next a s.world.failing = (Phase.failed _, s.world) :=
          Phase.next_failing trivial trivial hi.quiet
        rw [State.act_eq hnext]
        exact add_zero _
      · exact (congrArg (s.released + ·) (Phase.releases_of_not hpays _)).trans (add_zero _)
  | finish out guard rest hcalls =>
      left
      rw [deliver_released]
  | _ => exact .inl rfl

theorem permitted_of_locks (hfields : ∀ σ ∈ slots, σ.Locks) (hi : Inv a os slots firm exact s leaked) {act : Act}
    (hstep : Step a os slots act s s') : Permitted a (fun _ => True) s act := by
  have hslot : ∀ σ ∈ slots, ¬ σ.IsVariant := by
    intro σ hσ hvariant
    have hlocks := hfields σ hσ
    cases σ with
    | variant e start => exact hlocks
    | field off size => exact hvariant
    | element contents i size => exact hvariant
  cases hstep with
  | replaceWeak e start disc h hmem => exact absurd trivial (hslot _ hmem)
  | replaceOther e start disc payload hmem => exact absurd trivial (hslot _ hmem)
  | atomic ph guard rest hcalls hguard hrunning =>
      have hsound : ph.Sound a os slots _ := hi.sound ⟨ph, guard⟩ (hcalls ▸ Multiset.mem_cons_self _ _)
      cases ph with
      | bump σ ctrl size => exact fun hvariant => absurd hvariant (hslot σ hsound.1)
      | freeCtrl ctrl payer => exact fun _ _ _ _ _ => trivial
      | _ => exact trivial
  | fail ph guard rest hcalls hguard hrunning =>
      have hsound : ph.Sound a os slots _ := hi.sound ⟨ph, guard⟩ (hcalls ▸ Multiset.mem_cons_self _ _)
      cases ph with
      | load σ ctrl size => exact hslot σ hsound.1
      | bump σ ctrl size => exact hslot σ hsound.1
      | forward σ ctrl size => exact hslot σ hsound.1
      | _ => exact trivial
  | _ => exact trivial

/-- The guarantees of `set_weak_field` and `upgrade_weak_field`. -/
structure FieldsSafe (a : Allocator) (os : List BStackRc) (slots : List Slot) (s : State) : Prop where
  /-- Each reference displaced was released once, or its call is about to release it or has lost it. -/
  displaced : s.displaced = s.released + s.lost + s.owed
  released : ∀ act s', Step a os slots act s s' → s'.released = s.released ∨ ∃ o ∈ os,
    s'.released = s.released + {o.ctrl.start} ∧ s'.weakCount a o + 1 = s.weakCount a o
  owned : ∀ σ ∈ slots, s.Owns a os slots σ
  allocated : ∀ t ∈ s.calls, ∀ ctrl, t.phase.upgrading = some ctrl → s.Live a ctrl

/-- Weak fields in any interleaving, with failures anywhere; only a failure loses a reference. -/
theorem weak_fields_safe (hstart : Start a os slots s₀) (hfields : ∀ σ ∈ slots, σ.Locks) :
    (Run a os slots (fun _ _ => True) s₀ s → FieldsSafe a os slots s) ∧
    (Run a os slots (fun _ act => ∀ ph, act ≠ .fails ph) s₀ s →
      s.lost = 0 ∧ (s.calls = 0 → ∀ o ∈ os, s.Accounted a slots o)) := by
  have hf := hstart.family
  have hl := hstart.layout
  refine ⟨fun hrun => ?_, fun hrun => ?_⟩
  · obtain ⟨leaked, hi⟩ := hrun.inv (fun _ => True) False hstart.inv hf hl
      (fun hi hstep _ => permitted_of_locks hfields hi hstep) False.elim
    exact ⟨hi.settled, fun act s' => hi.releases hf, fun σ => hi.owns, fun t ht ctrl => hi.allocated ht⟩
  · obtain ⟨leaked, hi⟩ := hrun.inv (fun _ => True) True hstart.inv hf hl
      (fun hi hstep _ => permitted_of_locks hfields hi hstep) fun _ _ ph h => h ph rfl
    exact ⟨(hi.exact trivial).2.1, fun hidle o => hi.accounted hidle⟩

/-- Behind the object, a word for a slot. -/
def slotWorld : World := (newWorld.grant 0 ⟨96, 32⟩ (by decide +kernel)).store 0 96 (leBytes 8 48)

def atRest (w : World) (strong : Multiset BStackRc) (weak : Multiset BStackWeak) (freed : List (Nat × Range)) : State :=
  ⟨w, strong, weak, false, 0, freed, 0, 0, 0⟩

/-- One object, and a slot that names it. -/
theorem start_atRest {w : World} {strong : Multiset BStackRc} {weak : Multiset BStackWeak} {freed : List (Nat × Range)}
    {σ : Slot} (hq : w.Quiet) (hstrong : ∀ h ∈ strong, h = newObject) (hweak : ∀ h ∈ weak, h = ⟨newObject.ctrl⟩)
    (htarget : σ.target (w.files 0) = some (newObject.ctrl, 24))
    (hctrl : newObject.ctrl ∈ (w.files 0).live ∧ (0, newObject.ctrl) ∉ freed)
    (hdata : if 0 < strong.count newObject then newObject.data ∈ (w.files 0).live ∧ (0, newObject.data) ∉ freed
      else freed.count (0, newObject.data) = 1)
    (hwords : (w.files 0).bytes.word 64 = strong.count newObject ∧
      (w.files 0).bytes.word 72 = weak.count ⟨newObject.ctrl⟩ + 1 + (if 0 < strong.count newObject then 1 else 0) ∧
      (w.files 0).bytes.word 80 = 16)
    (hinside : σ.fetched.stop ≤ (w.files 0).len)
    (hclear : σ.range.stop ≤ newObject.ctrl.start ∨ newObject.ctrl.stop ≤ σ.range.start)
    (henum : ∀ e start, σ = .variant e start → e.tag.length = 8 ∧ 8 ≤ e.payloadLen)
    (helement : ∀ contents i size, σ = .element contents i size → 8 * i + 8 ≤ contents.len) :
    Start homeAllocator [newObject] [σ] (atRest w strong weak freed) := by
  have hslots : (atRest w strong weak freed).slotsOf homeAllocator [σ] newObject = 1 := by
    have hnames : (σ.target (w.files 0)).map Prod.fst = some newObject.ctrl := by rw [htarget]; rfl
    change ([σ].filter fun τ => (τ.target (w.files 0)).map Prod.fst = some newObject.ctrl).length = 1
    rw [List.filter_cons_of_pos (by simpa using hnames)]
    rfl
  refine ⟨hq, rfl, rfl, rfl, rfl, rfl, ?_, by decide, ?_, ?_, ?_, ?_, ?_, ?_, ?_, ?_, ?_, ?_, ?_, ?_, ?_⟩
  · unfold Distinct
    decide
  · exact fun h hh => hstrong h hh ▸ List.mem_singleton_self _
  · exact fun h hh => ⟨newObject, List.mem_singleton_self _, hweak h hh⟩
  · exact List.forall_mem_singleton.mpr fun _ => hwords.1
  · refine List.forall_mem_singleton.mpr fun _ => ?_
    rw [hslots]
    exact hwords.2.1
  · exact List.forall_mem_singleton.mpr fun _ => hwords.2.2
  · exact List.forall_mem_singleton.mpr hdata
  · refine List.forall_mem_singleton.mpr ?_
    rw [hslots, if_pos (Nat.succ_pos _)]
    exact hctrl
  · exact List.forall_mem_singleton.mpr hinside
  · exact List.pairwise_singleton _ _
  · exact List.forall_mem_singleton.mpr (List.forall_mem_singleton.mpr hclear)
  · exact fun e start h => henum e start (List.mem_singleton.mp h).symm
  · exact fun contents i size h => helement contents i size (List.mem_singleton.mp h).symm
  · refine List.forall_mem_singleton.mpr fun ctrl size h => ?_
    rw [show homeAllocator.stack = 0 from rfl] at h
    obtain ⟨rfl, rfl⟩ := Prod.ext_iff.mp (Option.some.inj (htarget.symm.trans h))
    exact ⟨newObject, List.mem_singleton_self _, rfl, rfl⟩

/-- A strong handle, a weak one, and a field that names the object too. -/
def fieldState : State := atRest (slotWorld.store 0 72 (leBytes 8 3)) {newObject} {⟨newObject.ctrl⟩} []

theorem start_fieldState : Start homeAllocator [newObject] [.field 96 24] fieldState :=
  start_atRest rfl (fun _ h => Multiset.mem_singleton.mp h) (fun _ h => Multiset.mem_singleton.mp h)
    (by decide +kernel) (by decide +kernel) (by decide +kernel) (by decide +kernel) (by decide +kernel)
    (by decide +kernel) (fun _ _ => Slot.noConfusion) (fun _ _ _ => Slot.noConfusion)

/-- Both accessors of the field are called, and wait for its lock. -/
def fieldCalls : Played where
  state := { fieldState with weak := 0 }
  calls := [⟨.locate (.field 96 24), .waiting⟩, ⟨.set 96 24 ⟨newObject.ctrl⟩, .waiting⟩]

/-- The swap, the release and the return, while the other call tries the lock; then the upgrade. -/
def fieldSchedule : List Nat := [1, 0, 1, 1, 0, 0, 0, 0, 0, 0, 0, 0]

theorem run_fieldCalls {P : State → Act → Prop} (hP : ∀ s act, (∀ ph, act ≠ .fails ph) → P s act) :
    Run homeAllocator [newObject] [.field 96 24] P fieldState (fieldCalls.play homeAllocator fieldSchedule).shared := by
  have hset : Step homeAllocator [newObject] [.field 96 24] (.starts (.set 96 24 ⟨newObject.ctrl⟩)) fieldState _ :=
    .set 96 24 ⟨newObject.ctrl⟩ (List.mem_singleton_self _) (Multiset.mem_singleton_self _)
      ⟨newObject, List.mem_singleton_self _, rfl, rfl⟩
  have hupgrade : Step homeAllocator [newObject] [.field 96 24] (.starts (.locate (.field 96 24)))
      { fieldState with weak := 0, calls := {⟨.set 96 24 ⟨newObject.ctrl⟩, .waiting⟩} } fieldCalls.shared :=
    .upgrade (.field 96 24) (List.mem_singleton_self _)
  have hstart : Run homeAllocator [newObject] [.field 96 24] P fieldState fieldCalls.shared :=
    (Relation.ReflTransGen.single ⟨_, hset, hP _ _ fun _ => Act.noConfusion⟩).tail
      ⟨_, hupgrade, hP _ _ fun _ => Act.noConfusion⟩
  exact hstart.trans (fieldCalls.play_run fieldSchedule (Played.meets_of hP _ _))

/-- The field is set and read again: its caller has one more strong handle. -/
theorem weak_fields_safe_swapped : ∃ s, FieldsSafe homeAllocator [newObject] [.field 96 24] s ∧ s.calls = 0 ∧
    s.displaced = {48} ∧ s.released = {48} ∧ s.lost = 0 ∧ s.strong = {newObject, newObject} ∧
    s.Accounted homeAllocator [.field 96 24] newObject := by
  have hidle := Played.idle_of_length (p := fieldCalls.play homeAllocator fieldSchedule) (by decide +kernel)
  have hdisplaced : (fieldCalls.play homeAllocator fieldSchedule).shared.displaced = {48} := by decide +kernel
  have hreleased : (fieldCalls.play homeAllocator fieldSchedule).shared.released = {48} := by decide +kernel
  have hstrong : (fieldCalls.play homeAllocator fieldSchedule).shared.strong = {newObject, newObject} := by
    decide +kernel
  obtain ⟨hlost, haccount⟩ := (weak_fields_safe start_fieldState (by simp [Slot.Locks])).2
    (run_fieldCalls fun _ _ h => h)
  exact ⟨_, (weak_fields_safe start_fieldState (by simp [Slot.Locks])).1 (run_fieldCalls fun _ _ _ => trivial), hidle,
    hdisplaced, hreleased, hlost, hstrong, haccount hidle newObject (List.mem_singleton_self _)⟩

/-! ### Upgrades borrow the count of their slot -/

namespace Phase

/-- The phases of an upgrade, with the release that a failed enum read ends with. -/
def Upgrades : Phase → Prop
  | locate _ | load _ _ _ | bump _ _ _ | forward _ _ _ | unclaim _ _ _ _ | retry _ _ _ _ | releasing _ _ _ _
  | payWeak _ (.temporary _) | freeCtrl _ (.temporary _) => True
  | _ => False

end Phase

/-- The step belongs to an upgrade. -/
def Act.Upgrades : Act → Prop
  | .steps ph | .fails ph => ph.Upgrades
  | _ => False

/-- The upgrade inside an enum read does not fail: no read or increment of its counter fails, and the strong
counter has room. -/
def Spared (a : Allocator) (s : State) : Act → Prop
  | .steps (.bump σ ctrl _) =>
      σ.IsVariant → (s.world.files a.stack).bytes.word (ctrl.start + CTRL_STRONG_OFFSET) + 1 < 2 ^ 64
  | .fails (.load σ _ _) | .fails (.bump σ _ _) | .fails (.forward σ _ _) => ¬ σ.IsVariant
  | _ => True

/-- No enum is replaced. -/
def Act.Keeps : Act → Prop
  | .starts (.replace _ _ _) => False
  | _ => True

/-- The slots keep their counts, and no step of an upgrade changes a weak counter or frees anything. -/
structure Neutral (a : Allocator) (os : List BStackRc) (slots : List Slot) (s : State) : Prop where
  owned : ∀ σ ∈ slots, s.Owns a os slots σ
  neutral : ∀ act s', Step a os slots act s s' → Spared a s act → act.Upgrades →
    (∀ o ∈ os, s'.weakCount a o = s.weakCount a o) ∧ s'.freed = s.freed

theorem weak_process {α : Type} {f : List UInt8 → List UInt8 × α} {w : World} {k : Nat} (hq : w.Quiet) (hf : Family os)
    (ho : o ∈ os) (hlen : ∀ buf : List UInt8, buf.length = 8 → (f buf).1.length = 8) {p : BStackRc} (hp : p ∈ os) :
    ((process k (o.ctrl.start + CTRL_STRONG_OFFSET)
      (o.ctrl.start + CTRL_STRONG_OFFSET + 8) f w).final.files k).bytes.word
        (p.ctrl.start + CTRL_WEAK_OFFSET) = (w.files k).bytes.word (p.ctrl.start + CTRL_WEAK_OFFSET) ∧
      newlyFreed w (process k (o.ctrl.start + CTRL_STRONG_OFFSET) (o.ctrl.start + CTRL_STRONG_OFFSET + 8) f w).final =
      [] := by
  simp only [process, Prog.durable_apply, if_neg hq.not_faulty, hq.tick_eq, Nat.add_sub_cancel_left]
  split
  · refine ⟨Mem.word_congr fun i hge hlt => ?_, newlyFreed_of_eq rfl⟩
    have hdata := hlen _ (Mem.length_read (w.files k).bytes (o.ctrl.start + CTRL_STRONG_OFFSET) 8)
    rw [World.files_store_same, File.bytes_write]
    by_cases hsame : p = o
    · subst hsame
      simp only [CTRL_STRONG_OFFSET, CTRL_WEAK_OFFSET, HEADER_SIZE] at hge hlt hdata ⊢
      exact Mem.write_of_ge (by omega)
    · have hsep := (hf.apart o ho p hp fun h => hsame h.symm).ctrl.2
      rw [Range.stop, Range.stop, (hf.wf o ho).size, (hf.wf p hp).size] at hsep
      simp only [CTRL_STRONG_OFFSET, CTRL_WEAK_OFFSET, CONTROL_SIZE, CTRL_DATA_OFFSET,
        HEADER_SIZE] at hge hlt hdata hsep ⊢
      rcases hsep with hsep | hsep
      · exact Mem.write_of_lt (by omega)
      · exact Mem.write_of_ge (by omega)
  · exact ⟨rfl, newlyFreed_of_eq rfl⟩

theorem getInto_final {w : World} (hq : w.Quiet) (k off n : Nat) : (getInto k off n w).final = w := by
  simp only [getInto, Prog.volatile_apply, if_neg hq.not_faulty, hq.tick_eq]
  split <;> rfl

theorem readU64_final {w : World} (hq : w.Quiet) (k off : Nat) : (readU64 k off w).final = w :=
  (readU64_eq k off w).2.trans (getInto_final hq k off 8)

theorem Inv.weak_unchanged (hi : Inv a os slots firm exact s leaked) (hf : Family os) {ph : Phase}
    (hsound : ph.Sound a os slots firm) (hupgrades : ph.Upgrades) :
    (∀ p ∈ os, ((ph.next a s.world).2.files a.stack).bytes.word (p.ctrl.start + CTRL_WEAK_OFFSET) = s.weakCount a p) ∧
      newlyFreed s.world (ph.next a s.world).2 = [] := by
  have hsame : (ph.next a s.world).2 = s.world →
      (∀ p ∈ os, ((ph.next a s.world).2.files a.stack).bytes.word (p.ctrl.start + CTRL_WEAK_OFFSET) =
        s.weakCount a p) ∧ newlyFreed s.world (ph.next a s.world).2 = [] := by
    intro h
    rw [h]
    exact ⟨fun _ _ => rfl, newlyFreed_of_eq rfl⟩
  have hcounter : ∀ {α : Type} {f : List UInt8 → List UInt8 × α}, ∀ o ∈ os,
      (∀ buf : List UInt8, buf.length = 8 → (f buf).1.length = 8) →
      (ph.next a s.world).2 = (process a.stack (o.ctrl.start + CTRL_STRONG_OFFSET)
        (o.ctrl.start + CTRL_STRONG_OFFSET + 8) f s.world).final →
      (∀ p ∈ os, ((ph.next a s.world).2.files a.stack).bytes.word (p.ctrl.start + CTRL_WEAK_OFFSET) =
        s.weakCount a p) ∧ newlyFreed s.world (ph.next a s.world).2 = [] := by
    intro α f o ho hlen h
    rw [h]
    exact ⟨fun p hp => (weak_process hi.quiet hf ho hlen hp).1, (weak_process hi.quiet hf ho hlen ho).2⟩
  cases ph with
  | locate σ =>
      refine hsame (Eq.trans ?_ (getInto_final hi.quiet a.stack σ.fetched.start σ.fetched.len))
      simp only [Phase.next]
      split
      · rfl
      · split <;> rfl
  | load σ ctrl size =>
      refine hsame (Eq.trans ?_ (readU64_final hi.quiet a.stack (ctrl.start + CTRL_STRONG_OFFSET)))
      simp only [Phase.next]
      split <;> rfl
  | bump σ ctrl size =>
      obtain ⟨-, o, ho, rfl, -⟩ := hsound
      refine hcounter (f := Refcount.bumpCounter) o ho (fun _ => length_bumpCounter) ?_
      simp only [Phase.next]
      split <;> rfl
  | forward σ ctrl size =>
      refine hsame (Eq.trans ?_ (readU64_final hi.quiet a.stack (ctrl.start + CTRL_DATA_OFFSET)))
      simp only [Phase.next]
      split <;> rfl
  | unclaim σ ctrl size e =>
      obtain ⟨-, o, ho, rfl, -⟩ := hsound
      refine hcounter (f := Refcount.subCounter 1) o ho (fun _ => length_subCounter) ?_
      simp only [Phase.next]
      split <;> rfl
  | retry σ ctrl size e =>
      refine hsame (Eq.trans ?_ (readU64_final hi.quiet a.stack (ctrl.start + CTRL_DATA_OFFSET)))
      simp only [Phase.next]
      split <;> rfl
  | releasing σ ctrl code e =>
      obtain ⟨-, o, ho, rfl, data, rfl⟩ := hsound
      refine hcounter (f := Refcount.subCounter 1) o ho (fun _ => length_subCounter) ?_
      simp only [Phase.next, strongReleaseCtrl_code (hf.wf o ho), Script.advance]
      split <;> rfl
  | payWeak ctrl payer =>
      obtain ⟨-, rfl | rfl⟩ := hsound
      · exact hupgrades.elim
      · exact hupgrades.elim
  | freeCtrl ctrl payer =>
      obtain ⟨-, rfl | rfl⟩ := hsound
      · exact hupgrades.elim
      · exact hupgrades.elim
  | _ => exact hupgrades.elim

theorem Inv.neutral (hi : Inv a os slots firm exact s leaked) (hf : Family os) : Neutral a os slots s := by
  refine ⟨fun σ => hi.owns, fun act s' hstep hspared hupgrades => ?_⟩
  cases hstep with
  | atomic ph guard rest hcalls hguard hrunning =>
      have hsound := hi.sound ⟨ph, guard⟩ (hcalls ▸ Multiset.mem_cons_self _ _)
      obtain ⟨hweak, hnone⟩ := hi.weak_unchanged hf hsound hupgrades
      refine ⟨hweak, ?_⟩
      rw [State.act, hnone, List.append_nil]
  | fail ph guard rest hcalls hguard hrunning =>
      have hsound := hi.sound ⟨ph, guard⟩ (hcalls ▸ Multiset.mem_cons_self _ _)
      have hnext : ph.next a s.world.failing = (ph.failed, ph.spent a s.world) :=
        Phase.next_failing (hsound.fresh hf) hrunning hi.quiet
      rw [State.act_eq hnext]
      refine ⟨fun o _ => ?_, ?_⟩
      · rw [State.weakCount, State.moved, Phase.files_spent, State.weakCount]
      · rw [State.moved, newlyFreed_of_eq (Phase.freed_spent ph), List.append_nil]
  | _ => exact hupgrades.elim

theorem permitted_of_spared {act : Act} (h : Spared a s act)
    (hreplace : ∀ e start v, act = .starts (.replace e start v) → ¬ firm (.variant e start))
    (hfree : ∀ ctrl payer, act = .steps (.freeCtrl ctrl payer) → ∀ t ∈ s.calls, ∀ σ size,
      t.phase.pinning = some (σ, ctrl, size) → firm σ) : Permitted a firm s act := by
  cases act with
  | starts ph =>
      cases ph with
      | replace e start v => exact hreplace e start v rfl
      | _ => exact trivial
  | steps ph =>
      cases ph with
      | bump σ ctrl size => exact h
      | freeCtrl ctrl payer => exact hfree ctrl payer rfl
      | _ => exact trivial
  | fails ph =>
      cases ph with
      | load σ ctrl size => exact h
      | bump σ ctrl size => exact h
      | forward σ ctrl size => exact h
      | _ => exact trivial
  | _ => exact trivial

/-- As long as no enum read fails, an upgrade is neutral on the count it borrows, whatever it returns. -/
theorem borrowed_upgrades_neutral (hstart : Start a os slots s₀)
    (hrun : Run a os slots (fun s act => Spared a s act ∧ act.Keeps) s₀ s) : Neutral a os slots s := by
  have hf := hstart.family
  obtain ⟨leaked, hi⟩ := hrun.inv (fun _ => True) False hstart.inv hf hstart.layout
    (fun _ _ hP => permitted_of_spared hP.1 (fun _ _ _ heq => by subst heq; exact hP.2.elim)
      fun _ _ _ _ _ _ _ _ => trivial) False.elim
  exact hi.neutral hf

/-- An enum of two variants. -/
def enumType : EnumType where
  tag := [1, 2, 3, 4, 5, 6, 7, 8]
  discLen := 1
  payloadLen := 8
  variants disc := if disc = 0 then some (.weak 24) else if disc = 1 then some .other else none

def enumSlot : Slot := .variant enumType 96

/-- The record of the enum holds the only reference to an object whose data block is freed. -/
def enumWorld : World :=
  ((slotWorld.release 0 ⟨16, 24⟩).store 0 64 (leBytes 8 0)).store 0 96 (enumType.image (.weak 0 ⟨newObject.ctrl⟩))

def enumState : State := atRest enumWorld 0 0 [(0, ⟨16, 24⟩)]

theorem target_enumState : enumSlot.target (enumState.world.files 0) = some (newObject.ctrl, 24) := by decide +kernel

theorem shape_enumSlot (e : EnumType) (start : Nat) (h : enumSlot = .variant e start) :
    e.tag.length = 8 ∧ 8 ≤ e.payloadLen := by
  cases h
  decide

theorem start_enumState : Start homeAllocator [newObject] [enumSlot] enumState :=
  start_atRest rfl (fun _ h => absurd h (Multiset.notMem_zero _)) (fun _ h => absurd h (Multiset.notMem_zero _))
    target_enumState (by decide +kernel) (by decide +kernel) (by decide +kernel) (by decide +kernel)
    (by decide +kernel) shape_enumSlot (fun _ _ _ => Slot.noConfusion)

def enumAt (w : World) (weak : Multiset BStackWeak) (calls : Multiset Access) (freed : List (Nat × Range)) : State :=
  ⟨w, 0, weak, false, calls, freed, 0, 0, 0⟩

/-- A run of the accessors of the enum. -/
abbrev EnumRun (P : State → Act → Prop) (s : State) : Prop := Run homeAllocator [newObject] [enumSlot] P enumState s

theorem EnumRun.tail {P : State → Act → Prop} {s t : State} {act : Act} (h : EnumRun P s)
    (hstep : Step homeAllocator [newObject] [enumSlot] act s t) (hP : P s act) : EnumRun P t :=
  Relation.ReflTransGen.tail h ⟨act, hstep, hP⟩

theorem EnumRun.acts {P : State → Act → Prop} {ph ph' : Phase} {w w' : World} {weak : Multiset BStackWeak}
    {rest : Multiset Access} {freed new : List (Nat × Range)}
    (h : EnumRun P (enumAt w weak (⟨ph, .free⟩ ::ₘ rest) freed))
    (hP : P (enumAt w weak (⟨ph, .free⟩ ::ₘ rest) freed) (.steps ph)) (hrunning : ph.Running)
    (hnext : ph.next homeAllocator w = (ph', w')) (hnew : newlyFreed w w' = new)
    (hlogs : ph.displaces ph' = 0 ∧ ph.releases ph' = 0 ∧ ph.loses ph' = 0) :
    EnumRun P (enumAt w' weak (⟨ph', .free⟩ ::ₘ rest) (freed ++ new)) := by
  have hstep := h.tail (.atomic ph .free rest rfl Guard.noConfusion hrunning) hP
  have hact : (enumAt w weak (⟨ph, .free⟩ ::ₘ rest) freed).act homeAllocator ph .free rest w =
      enumAt w' weak (⟨ph', .free⟩ ::ₘ rest) (freed ++ new) := by
    rw [State.act_eq hnext]
    simp only [State.moved, enumAt, hnew, hlogs.1, hlogs.2.1, hlogs.2.2, add_zero]
  exact hact ▸ hstep

theorem EnumRun.fails {P : State → Act → Prop} {ph : Phase} {w : World} {weak : Multiset BStackWeak}
    {rest : Multiset Access} {freed : List (Nat × Range)} (h : EnumRun P (enumAt w weak (⟨ph, .free⟩ ::ₘ rest) freed))
    (hP : P (enumAt w weak (⟨ph, .free⟩ ::ₘ rest) freed) (.fails ph)) (hrunning : ph.Running)
    (hfresh : ph.Fresh homeAllocator) (hq : w.Quiet)
    (hspent : ph.spent homeAllocator w = w)
    (hlogs : ph.displaces ph.failed = 0 ∧ ph.releases ph.failed = 0 ∧ ph.loses ph.failed = 0) :
    EnumRun P (enumAt w weak (⟨ph.failed, .free⟩ ::ₘ rest) freed) := by
  have hstep := h.tail (.fail ph .free rest rfl Guard.noConfusion hrunning) hP
  have hnone : newlyFreed w w = [] := newlyFreed_of_eq rfl
  have hact : (enumAt w weak (⟨ph, .free⟩ ::ₘ rest) freed).act homeAllocator ph .free rest w.failing =
      enumAt w weak (⟨ph.failed, .free⟩ ::ₘ rest) freed := by
    rw [State.act_eq (Phase.next_failing hfresh hrunning hq), hspent]
    simp only [State.moved, enumAt, hnone, hlogs.1, hlogs.2.1, hlogs.2.2, add_zero, List.append_nil]
  exact hact ▸ hstep

theorem locate_enumWorld : (Phase.locate enumSlot).next homeAllocator enumWorld =
    (.load enumSlot newObject.ctrl 24, enumWorld) := by
  have hrun : getInto homeAllocator.stack enumSlot.fetched.start enumSlot.fetched.len enumWorld =
    ⟨.ok _, enumWorld, []⟩ :=
    getInto_run rfl (by decide +kernel)
  have hdecode := (Slot.decode_fetched start_enumState.layout (List.mem_singleton_self _)).mpr target_enumState
  have hdecode' : enumSlot.decode ((enumWorld.files homeAllocator.stack).bytes.read enumSlot.fetched.start
    enumSlot.fetched.len) = .ok (newObject.ctrl, 24) := hdecode
  simp only [Phase.next, hrun, hdecode']

/-- The read has its offset. -/
theorem located_run {P : State → Act → Prop}
    (hP : ∀ s, P s (.starts (.locate enumSlot)) ∧ P s (.steps (.locate enumSlot))) :
    EnumRun P (enumAt enumWorld 0 {⟨.load enumSlot newObject.ctrl 24, .free⟩} [(0, ⟨16, 24⟩)]) := by
  have h : EnumRun P (enumAt enumWorld 0 {⟨.locate enumSlot, .free⟩} [(0, ⟨16, 24⟩)]) :=
    EnumRun.tail .refl (.upgrade enumSlot (List.mem_singleton_self _)) (hP _).1
  exact h.acts (hP _).2 trivial locate_enumWorld (newlyFreed_of_eq rfl) ⟨rfl, rfl, rfl⟩

/-- The object has a strong handle, and an enum names it. -/
def sharedState : State :=
  atRest ((slotWorld.store 0 72 (leBytes 8 2)).store 0 96 (enumType.image (.weak 0 ⟨newObject.ctrl⟩))) {newObject} 0 []

theorem start_sharedState : Start homeAllocator [newObject] [enumSlot] sharedState :=
  start_atRest rfl (fun _ h => Multiset.mem_singleton.mp h) (fun _ h => absurd h (Multiset.notMem_zero _))
    (by decide +kernel) (by decide +kernel) (by decide +kernel) (by decide +kernel) (by decide +kernel)
    (by decide +kernel) shape_enumSlot (fun _ _ _ => Slot.noConfusion)

def enumReads : Played := ((⟨sharedState, []⟩ : Played).reads enumSlot).reads enumSlot

/-- One of them returns, and the other is about to increment the strong counter. -/
def readSchedule : List Nat := [0, 1, 1, 0, 0, 0, 0]

/-- The strong counter has room. -/
def roomy (w : World) : Phase → Bool
  | .bump _ ctrl _ => (w.files 0).bytes.word (ctrl.start + CTRL_STRONG_OFFSET) + 1 < 2 ^ 64
  | _ => true

theorem spared_of_roomy (p : Played) (t : Access) (h : roomy p.state.world t.phase = true) :
    Spared homeAllocator p.shared t.label ∧ t.label.Keeps := by
  obtain ⟨phase, guard⟩ := t
  rw [Access.label]
  split
  · exact ⟨trivial, trivial⟩
  · cases phase with
    | bump σ ctrl size =>
        rw [roomy, decide_eq_true_eq] at h
        exact ⟨fun _ => h, trivial⟩
    | _ => exact ⟨trivial, trivial⟩

/-- A read has upgraded the count of its slot, and another one is in the midst of it. -/
theorem borrowed_upgrades_neutral_located : ∃ s, Neutral homeAllocator [newObject] [enumSlot] s ∧
    s.strong = {newObject, newObject} ∧ s.calls.map (fun t => t.phase.upgrading) = {some newObject.ctrl} := by
  have hstart : Run homeAllocator [newObject] [enumSlot] (fun s act => Spared homeAllocator s act ∧ act.Keeps)
      sharedState enumReads.shared :=
    (Played.reads_run (List.mem_singleton_self _) ⟨sharedState, []⟩ ⟨trivial, trivial⟩).trans
      (Played.reads_run (List.mem_singleton_self _) _ ⟨trivial, trivial⟩)
  have hmeets : enumReads.Meets homeAllocator (fun s act => Spared homeAllocator s act ∧ act.Keeps) readSchedule :=
    Played.meets_of_checked spared_of_roomy (by decide +kernel)
  have hstrong : (enumReads.play homeAllocator readSchedule).shared.strong = {newObject, newObject} := by decide +kernel
  have hupgrading : (enumReads.play homeAllocator readSchedule).shared.calls.map (fun t => t.phase.upgrading) =
      {some newObject.ctrl} := by decide +kernel
  have hrun := hstart.trans (enumReads.play_run readSchedule hmeets)
  exact ⟨_, borrowed_upgrades_neutral start_sharedState hrun, hstrong, hupgrading⟩

def paid (w : World) : World := w.store 0 72 (leBytes 8 0)

theorem payWeak_next {w : World} (hq : w.Quiet) (hone : (w.files 0).bytes.word 72 = 1) (hlen : 80 ≤ (w.files 0).len)
    (payer : Payer) : (Phase.payWeak newObject.ctrl payer).next homeAllocator w =
    (.freeCtrl newObject.ctrl payer, paid w) := by
  have hsub : Refcount.subCounter 1 ((w.files 0).bytes.read 72 8) = (leBytes 8 0, 1, false) := by
    have hword : leNat ((w.files 0).bytes.read 72 8) = 1 := hone
    rw [Refcount.subCounter, hword]
    rfl
  have hrun : process 0 72 80 (Refcount.subCounter 1) w = ⟨.ok (1, false), paid w, [w]⟩ := by
    have h : process 0 72 (72 + 8) (Refcount.subCounter 1) w = _ := process_run hq hlen
    rwa [hsub] at h
  have hrun' : process homeAllocator.stack (newObject.ctrl.start + CTRL_WEAK_OFFSET)
    (newObject.ctrl.start + CTRL_WEAK_OFFSET + 8) (Refcount.subCounter 1) w = ⟨.ok (1, false), paid w, [w]⟩ := hrun
  simp only [Phase.next, hrun', if_true]

theorem freeCtrl_next {w : World} (hq : w.Quiet) (h : newObject.ctrl ∈ (w.files 0).live) (payer : Payer) :
    (Phase.freeCtrl newObject.ctrl payer).next homeAllocator w =
      (.done (payer.finish (.ok ())), w.release 0 newObject.ctrl) := by
  have hrun : deallocRange homeAllocator newObject.ctrl w = ⟨.ok (), w.release 0 newObject.ctrl, [w]⟩ :=
    deallocRange_run hq h
  simp only [Phase.next, hrun]

theorem EnumRun.pays {P : State → Act → Prop} {w : World} {payer : Payer} {rest : Multiset Access}
    (h : EnumRun P (enumAt w 0 (⟨.payWeak newObject.ctrl payer, .free⟩ ::ₘ rest) [(0, ⟨16, 24⟩)])) (hq : w.Quiet)
    (hone : (w.files 0).bytes.word 72 = 1) (hlen : 80 ≤ (w.files 0).len) (hlive : newObject.ctrl ∈ (w.files 0).live)
    (hpayer : payer ≠ .setter) (hP : ∀ s ph, P s (.steps ph)) :
    EnumRun P (enumAt ((paid w).release 0 newObject.ctrl) 0 (⟨.done (payer.finish (.ok ())), .free⟩ ::ₘ rest)
      [(0, ⟨16, 24⟩), (0, newObject.ctrl)]) := by
  have hlogs : ∀ ph', (Phase.payWeak newObject.ctrl payer).displaces ph' = 0 ∧
      (Phase.payWeak newObject.ctrl payer).releases ph' = 0 ∧ (Phase.payWeak newObject.ctrl payer).loses ph' = 0 := by
    intro ph'
    cases payer with
    | setter => exact absurd rfl hpayer
    | handle => exact ⟨rfl, rfl, rfl⟩
    | temporary e => exact ⟨rfl, rfl, rfl⟩
  have h := h.acts (hP _ _) trivial (payWeak_next hq hone hlen payer) (newlyFreed_of_eq rfl) (hlogs _)
  rw [List.append_nil] at h
  have hlive' : newObject.ctrl ∈ ((paid w).files 0).live := by rwa [paid, World.live_store]
  exact h.acts (hP _ _) trivial (freeCtrl_next (w := paid w) hq hlive' payer) (newlyFreed_release ..) ⟨rfl, rfl, rfl⟩

/-- The reading of the strong counter fails, and the read frees the control block that its slot names. -/
theorem failed_read_frees : ∃ s, EnumRun (fun _ act => act.Keeps) s ∧ s.calls = {⟨.done (.error ioFault), .free⟩} ∧
    enumSlot.target (s.world.files 0) = some (newObject.ctrl, 24) ∧ s.CtrlFreed homeAllocator newObject := by
  have h : EnumRun (fun _ act => act.Keeps) _ := located_run fun _ => ⟨trivial, trivial⟩
  have h := h.fails trivial trivial trivial rfl rfl ⟨rfl, rfl, rfl⟩
  have h := h.pays rfl (by decide +kernel) (by decide +kernel) (by decide +kernel) (fun h => nomatch h)
    fun _ _ => trivial
  exact ⟨_, h, rfl, by decide +kernel, List.mem_cons_of_mem _ (List.mem_singleton_self _)⟩

/-! ### Reads of an enum and replacements -/

/-- No control block is freed that an enum read is about to touch with no count of its own. -/
def Unread (s : State) : Act → Prop
  | .steps (.freeCtrl ctrl _) => ∀ t ∈ s.calls, ∀ σ size, t.phase.pinning = some (σ, ctrl, size) → ¬ σ.IsVariant
  | _ => True

/-- The step of an enum read: it goes on with what the slot names when it reads it, and upgrades that or returns
nothing. -/
def Follows (os : List BStackRc) (f : File) : Phase → Phase → Prop
  | .locate σ, ph => (∃ ctrl size, σ.target f = some (ctrl, size) ∧ ph = .load σ ctrl size) ∨
      σ.target f = none ∧ ∃ out, ph = .done out ∧ ∀ h, out ≠ .ok (.strong h)
  | .load σ ctrl size, ph => ph = .bump σ ctrl size ∨ ph = .done (.ok .nothing)
  | .bump σ ctrl size, ph => ph = .forward σ ctrl size ∨ ph = .done (.ok .nothing)
  | .forward _ ctrl size, ph => ∃ o ∈ os, o.ctrl = ctrl ∧ o.data.len = size ∧ ph = .done (.ok (.strong o))
  | _, _ => True

/-- The phases of a read of the slot. -/
def Phase.reading : Phase → Option Slot
  | locate σ | load σ _ _ | bump σ _ _ | forward σ _ _ => some σ
  | _ => none

structure ReadsSafe (a : Allocator) (os : List BStackRc) (s : State) : Prop where
  allocated : ∀ t ∈ s.calls, ∀ ctrl, t.phase.upgrading = some ctrl → s.Live a ctrl
  follows : ∀ t ∈ s.calls, ∀ σ, t.phase.reading = some σ → σ.IsVariant → Spared a s (.steps t.phase) →
    Follows os (s.world.files a.stack) t.phase (t.phase.next a s.world).1

theorem Inv.follows (hi : Inv a os slots firm exact s leaked) (hf : Family os) (hl : Layout os slots) {t : Access}
    (ht : t ∈ s.calls) {σ : Slot} (hreading : t.phase.reading = some σ) (hvariant : σ.IsVariant)
    (hspared : Spared a s (.steps t.phase)) :
    Follows os (s.world.files a.stack) t.phase (t.phase.next a s.world).1 := by
  have hsound := hi.sound t ht
  obtain ⟨rest, hcalls⟩ := Multiset.exists_cons_of_mem ht
  obtain ⟨ph, guard⟩ := t
  cases ph with
  | locate τ =>
      have hrun := getInto_run hi.quiet (hi.inside τ hsound)
      cases hdecode : τ.decode ((s.world.files a.stack).bytes.read τ.fetched.start τ.fetched.len) with
      | ok target =>
          refine .inl ⟨target.1, target.2, (Slot.decode_fetched hl hsound).mp hdecode, ?_⟩
          simp only [Phase.next, hrun, hdecode]
      | error out =>
          refine .inr ⟨?_, out, by simp only [Phase.next, hrun, hdecode], fun h hout => ?_⟩
          · by_contra hsome
            obtain ⟨target, htarget⟩ := Option.ne_none_iff_exists'.mp hsome
            have hok := (Slot.decode_fetched hl hsound).mpr (show τ.target _ = some (target.1, target.2) from htarget)
            rw [hok] at hdecode
            cases hdecode
          · subst hout
            cases τ with
            | variant e start =>
                simp only [Slot.decode] at hdecode
                split at hdecode <;> cases hdecode
            | field off n =>
                cases hreading
                exact hvariant
            | element contents i n =>
                cases hreading
                exact hvariant
  | load τ ctrl size =>
      obtain ⟨-, o, ho, rfl, -⟩ := hsound
      have hrun := (hi.agrees o ho).load_strong (hf.wf o ho) (hi.pinned hcalls rfl ho rfl)
      by_cases hzero : (s.total a slots leaked o).strong = 0
      · exact .inr (by simp only [Phase.next, hrun, if_pos hzero])
      · exact .inl (by simp only [Phase.next, hrun, if_neg hzero])
  | bump τ ctrl size =>
      cases hreading
      obtain ⟨-, o, ho, rfl, -⟩ := hsound
      obtain ⟨result, overflow, w', hrun, -, -, -, hflag⟩ :=
        bump_strong (hf.wf o ho) (hi.agrees o ho) (hi.pinned hcalls rfl ho rfl)
      obtain rfl := hflag (hspared hvariant)
      cases result with
      | none => exact .inr (by simp only [Phase.next, hrun])
      | some v => exact .inl (by simp only [Phase.next, hrun])
  | forward τ ctrl size =>
      obtain ⟨-, o, ho, rfl, rfl⟩ := hsound
      have hA := hi.agrees o ho
      rw [State.total_cons hcalls, Phase.share_self rfl] at hA
      have hrun := hA.load_forward (hf.wf o ho) (Ledger.watchers_of_strong (Nat.add_pos_left Nat.one_pos _))
      exact ⟨o, ho, rfl, rfl, by simp only [Phase.next, hrun]⟩
  | _ => exact trivial

theorem enum_reads_safe (hstart : Start a os slots s₀)
    (hrun : Run a os slots (fun s act => Spared a s act ∧ Unread s act) s₀ s) : ReadsSafe a os s := by
  have hf := hstart.family
  have hl := hstart.layout
  obtain ⟨leaked, hi⟩ := hrun.inv (fun σ => ¬ σ.IsVariant) False hstart.inv hf hl
    (fun _ _ hP => permitted_of_spared hP.1 (fun _ _ _ _ hnot => hnot trivial)
      fun _ _ heq => by subst heq; exact hP.2) False.elim
  exact ⟨fun t ht ctrl => hi.allocated ht, fun t ht σ => hi.follows hf hl ht⟩

def plainValue : Value := .other 1 (List.replicate 8 0)

def replacedWorld : World := enumWorld.store 0 96 (enumType.image plainValue)

def reader : Access := ⟨.load enumSlot newObject.ctrl 24, .free⟩

theorem replace_enumWorld : (Phase.replace enumType 96 plainValue).next homeAllocator enumWorld =
    (.done (.ok (.value (.weak 0 ⟨newObject.ctrl⟩))), replacedWorld) := by
  have hrun : swap homeAllocator.stack 96 (enumType.image plainValue) enumWorld =
      ⟨.ok ((enumWorld.files 0).bytes.read 96 25), replacedWorld, [enumWorld]⟩ := swap_run rfl (by decide +kernel)
  have hvalue : enumType.reconstruct ((enumWorld.files 0).bytes.read 96 25) = .ok (.weak 0 ⟨newObject.ctrl⟩) := by
    have hdisc : enumType.discOf ((enumWorld.files 0).bytes.read 96 25) = 0 := by decide +kernel
    have hctrl : enumType.ctrlOf ((enumWorld.files 0).bytes.read 96 25) = newObject.ctrl := by decide +kernel
    rw [EnumType.reconstruct, hdisc, hctrl]
    rfl
  simp only [Phase.next, hrun, hvalue]

/-- The enum is replaced behind the back of the read, and its caller has the reference. -/
theorem replaced_run {P : State → Act → Prop} (hP : ∀ s ph, P s (.starts ph) ∧ P s .returns ∧
      (ph = .locate enumSlot ∨ ph = .replace enumType 96 plainValue → P s (.steps ph))) :
    EnumRun P (enumAt replacedWorld {⟨newObject.ctrl⟩} {reader} [(0, ⟨16, 24⟩)]) := by
  have h : EnumRun P (enumAt enumWorld 0 {reader} [(0, ⟨16, 24⟩)]) :=
    located_run fun s => ⟨(hP s _).1, (hP s _).2.2 (.inl rfl)⟩
  have h : EnumRun P (enumAt enumWorld 0 {⟨.replace enumType 96 plainValue, .free⟩, reader} [(0, ⟨16, 24⟩)]) :=
    h.tail (.replaceOther enumType 96 1 (List.replicate 8 0) (List.mem_singleton_self _) ⟨by decide, rfl, rfl⟩)
      (hP _ _).1
  have h := h.acts ((hP _ _).2.2 (.inr rfl)) trivial replace_enumWorld (newlyFreed_of_eq rfl) ⟨rfl, rfl, rfl⟩
  exact h.tail (.finish (.ok (.value (.weak 0 ⟨newObject.ctrl⟩))) .free {reader} rfl) (hP _ (.done (.ok .nothing))).2.1

theorem enum_reads_safe_replaced : ReadsSafe homeAllocator [newObject]
    (enumAt replacedWorld {⟨newObject.ctrl⟩} {reader} [(0, ⟨16, 24⟩)]) := by
  refine enum_reads_safe start_enumState (replaced_run fun s ph => ⟨⟨trivial, trivial⟩, ⟨trivial, trivial⟩, ?_⟩)
  rintro (rfl | rfl)
  · exact ⟨trivial, trivial⟩
  · exact ⟨trivial, trivial⟩

/-- The drop of the displaced reference frees the control block that the read is about to touch. -/
theorem replaced_read_dangles : ∃ s, EnumRun (fun _ act => ∀ ph, act ≠ .fails ph) s ∧ s.calls = {reader} ∧
    s.CtrlFreed homeAllocator newObject := by
  have h : EnumRun (fun _ act => ∀ ph, act ≠ .fails ph) _ :=
    replaced_run fun _ _ => ⟨fun _ => nofun, fun _ => nofun, fun _ _ => nofun⟩
  have h : EnumRun (fun _ act => ∀ ph, act ≠ .fails ph) (enumAt replacedWorld 0
      {⟨.payWeak newObject.ctrl .handle, .free⟩, reader} [(0, ⟨16, 24⟩)]) :=
    h.tail (.dropWeak ⟨newObject.ctrl⟩ (Multiset.mem_singleton_self _)) (fun _ => nofun)
  have h := h.pays rfl (by decide +kernel) (by decide +kernel) (by decide +kernel) (fun h => nomatch h)
    fun _ _ _ => nofun
  have h := h.tail (.finish (.ok .nothing) .free {reader} rfl) (fun _ => nofun)
  exact ⟨_, h, rfl, List.mem_cons_of_mem _ (List.mem_singleton_self _)⟩

end WeakSlot

end BStackRaii
