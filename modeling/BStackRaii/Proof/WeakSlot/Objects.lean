import BStackRaii.Model.WeakSlot
import BStackRaii.Proof.Rc.Upgrade
/-!
# What one phase does to an object

Each phase of a call touches the blocks of one object at most. `Touches` says what a step on that object
leaves as it was, so that the file goes on agreeing with the ledgers of all others. There is one lemma for
each phase that takes, gives up or passes on a count.
-/

namespace BStackRaii

namespace WeakSlot

variable {a : Allocator} {o o' : BStackRc} {k : Nat} {L B : Ledger} {freed freed' : List (Nat × Range)}
  {w w' : World}

/-! ### Frames -/

/-- A step on the object `o` leaves everything else in file `k` alone. -/
structure Touches (k : Nat) (o : BStackRc) (freed freed' : List (Nat × Range)) (w w' : World) : Prop where
  quiet : w'.Quiet
  live : ∀ r, r ≠ o.data → r ≠ o.ctrl → r ∈ (w.files k).live → r ∈ (w'.files k).live
  bytes : ∀ i, i < o.ctrl.start ∨ o.ctrl.stop ≤ i → (w'.files k).bytes i = (w.files k).bytes i
  freed : ∀ r, r ≠ o.data → r ≠ o.ctrl → freed'.count (k, r) = freed.count (k, r)
  len : (w'.files k).len = (w.files k).len

namespace Touches

theorem refl (hq : w.Quiet) : Touches k o freed freed w w :=
  ⟨hq, fun _ _ _ h => h, fun _ _ => rfl, fun _ _ _ => rfl, rfl⟩

theorem store {off : Nat} {data : List UInt8} (hq : w.Quiet) (hlen : data.length = 8)
    (hoff : o.ctrl.start ≤ off) (hstop : off + 8 ≤ o.ctrl.stop) :
    Touches k o freed freed w (w.store k off data) where
  quiet := hq
  live r _ _ h := by rwa [World.live_store]
  bytes i hi := by
    rw [World.files_store_same, File.bytes_write]
    rcases hi with hi | hi
    · exact Mem.write_of_lt (by omega)
    · exact Mem.write_of_ge (by omega)
  freed _ _ _ := rfl
  len := by rw [World.files_store_same, File.len_write]

theorem release {r : Range} (hq : w.Quiet) (hr : r = o.data ∨ r = o.ctrl) :
    Touches k o freed (freed ++ [(k, r)]) w (w.release k r) where
  quiet := hq
  live x hdata hctrl h := by
    have hne : x ≠ r := by rcases hr with rfl | rfl <;> assumption
    rw [World.files_release_same, File.live_free]
    exact (List.mem_erase_of_ne hne).mpr h
  bytes i _ := by rw [World.files_release_same, File.bytes_free]
  freed x hdata hctrl := by
    have hne : x ≠ r := by rcases hr with rfl | rfl <;> assumption
    rw [List.count_append, List.count_singleton, if_neg (by simpa using fun h => hne h.symm), Nat.add_zero]
  len := by rw [World.files_release_same, File.len_free]

end Touches

/-- The blocks of two objects are told apart. -/
structure Apart (o o' : BStackRc) : Prop where
  data_data : o'.data ≠ o.data
  data_ctrl : o'.data ≠ o.ctrl
  ctrl_data : o'.ctrl ≠ o.data
  ctrl : o'.ctrl.Apart o.ctrl

theorem Apart.ctrl_ne (h : Apart o o') : o'.ctrl ≠ o.ctrl := h.ctrl.1

/-- The file goes on agreeing with the ledger of an object that is not touched. -/
theorem agrees_of_touches (hwf : WellFormed o') (hapart : Apart o o') (ht : Touches a.stack o freed freed' w w')
    (hA : Agrees a o' L freed w) : Agrees a o' L freed' w' := by
  have hword : ∀ field, field + 8 ≤ CONTROL_SIZE → (w'.files a.stack).bytes.word (o'.ctrl.start + field) =
      (w.files a.stack).bytes.word (o'.ctrl.start + field) := by
    intro field hfield
    have hsep := hapart.ctrl.2
    rw [Range.stop, hwf.size] at hsep
    refine Mem.word_congr fun i hge hlt => ht.bytes i ?_
    rcases hsep with hsep | hsep
    · left
      omega
    · right
      omega
  exact {
    quiet := ht.quiet
    data_freed := (ht.freed _ hapart.data_data hapart.data_ctrl).symm ▸ hA.data_freed
    ctrl_freed := (ht.freed _ hapart.ctrl_data hapart.ctrl_ne).symm ▸ hA.ctrl_freed
    data_live := fun h => ht.live _ hapart.data_data hapart.data_ctrl (hA.data_live h)
    ctrl_live := fun h => ht.live _ hapart.ctrl_data hapart.ctrl_ne (hA.ctrl_live h)
    strong := fun h => (hword _ (by decide)).trans (hA.strong h)
    weak := fun h => (hword _ (by decide)).trans (hA.weak h)
    forward := fun h => (hword _ (by decide)).trans (hA.forward h)
    moved := by
      rw [ht.freed _ hapart.data_data hapart.data_ctrl]
      exact hA.moved }

/-! ### Counter steps -/

theorem length_subCounter {buf : List UInt8} (h : buf.length = 8) : (Refcount.subCounter 1 buf).1.length = 8 := by
  simp only [Refcount.subCounter]
  split
  · exact length_leBytes 8 _
  · exact h

theorem length_bumpCounter {buf : List UInt8} (h : buf.length = 8) : (Refcount.bumpCounter buf).1.length = 8 := by
  simp only [Refcount.bumpCounter]
  split
  · exact h
  · split
    · exact length_leBytes 8 _
    · exact h

theorem bumpCounter_flag {buf : List UInt8} (h : leNat buf + 1 < 2 ^ 64) : (Refcount.bumpCounter buf).2.2 = false := by
  simp only [Refcount.bumpCounter, if_pos h]
  split <;> rfl

/-- A counter step touches the control block only, whether it lands or not. -/
theorem touches_process {α : Type} {field : Nat} {f : List UInt8 → List UInt8 × α} (hq : w.Quiet)
    (hwf : WellFormed o) (hfield : field + 8 ≤ CONTROL_SIZE)
    (hlen : ∀ buf : List UInt8, buf.length = 8 → (f buf).1.length = 8) :
    Touches k o freed freed w (process k (o.ctrl.start + field) (o.ctrl.start + field + 8) f w).final := by
  simp only [process, Prog.durable_apply, if_neg hq.not_faulty, hq.tick_eq, Nat.add_sub_cancel_left]
  split
  · refine .store hq (hlen _ (Mem.length_read ..)) (Nat.le_add_right ..) ?_
    rw [Range.stop, hwf.size]
    omega
  · exact .refl hq

section Phases

variable (hwf : WellFormed o)
include hwf

theorem sub_strong (hA : Agrees a o (⟨1, 0, 0, 0, 0⟩ + B) freed w) :
    ∃ prev w', process a.stack (o.ctrl.start + CTRL_STRONG_OFFSET) (o.ctrl.start + CTRL_STRONG_OFFSET + 8)
        (Refcount.subCounter 1) w = ⟨.ok (prev, false), w', [w]⟩ ∧ newlyFreed w w' = [] ∧
      Touches a.stack o freed freed w w' ∧
      Agrees a o (if prev = 1 then ⟨0, 1, 0, 0, 0⟩ + B else B) freed w' := by
  obtain ⟨prev, w', hrun, hfreed, hA'⟩ := hA.sub_strong hwf
  have ht : Touches a.stack o freed freed w (process a.stack (o.ctrl.start + CTRL_STRONG_OFFSET)
      (o.ctrl.start + CTRL_STRONG_OFFSET + 8) (Refcount.subCounter 1) w).final :=
    touches_process hA.quiet hwf (by decide) fun _ => length_subCounter
  rw [hrun] at ht
  exact ⟨prev, w', hrun, newlyFreed_of_eq hfreed, ht, hA'⟩

/-- A weak count is given up. The counter tells how many there were. -/
theorem sub_weak (hA : Agrees a o (⟨0, 0, 1, 0, 0⟩ + B) freed w) :
    ∃ w', process a.stack (o.ctrl.start + CTRL_WEAK_OFFSET) (o.ctrl.start + CTRL_WEAK_OFFSET + 8)
        (Refcount.subCounter 1) w =
          ⟨.ok ((w.files a.stack).bytes.word (o.ctrl.start + CTRL_WEAK_OFFSET), false), w', [w]⟩ ∧
      newlyFreed w w' = [] ∧ Touches a.stack o freed freed w w' ∧
      Agrees a o (if (w.files a.stack).bytes.word (o.ctrl.start + CTRL_WEAK_OFFSET) = 1 then
        ⟨0, 0, 0, 1, 0⟩ + B else B) freed w' := by
  obtain ⟨prev, w', hrun, hfreed, hA'⟩ := hA.sub_weak hwf
  have ht : Touches a.stack o freed freed w (process a.stack (o.ctrl.start + CTRL_WEAK_OFFSET)
      (o.ctrl.start + CTRL_WEAK_OFFSET + 8) (Refcount.subCounter 1) w).final :=
    touches_process hA.quiet hwf (by decide) fun _ => length_subCounter
  have hpos : 0 < (⟨0, 0, 1, 0, 0⟩ + B : Ledger).watchers :=
    Ledger.watchers_of_weak (Nat.add_pos_left Nat.one_pos _)
  have hprev : prev = (w.files a.stack).bytes.word (o.ctrl.start + CTRL_WEAK_OFFSET) := by
    have hword := hA.read_counter (Ledger.keep_pos hpos) .weak
    obtain ⟨bytes, heq, -, -⟩ := Refcount.subCounter_pos (Mem.length_read (w.files a.stack).bytes
      (o.ctrl.start + CTRL_WEAK_OFFSET) 8) (hpos.trans_eq hword.symm)
    rw [hA.process_counter hwf (Ledger.keep_pos hpos) .weak, heq] at hrun
    exact (congrArg Prod.fst (Except.ok.inj (congrArg Run.out hrun))).symm
  rw [hrun] at ht
  subst hprev
  refine ⟨w', hrun, newlyFreed_of_eq hfreed, ht, ?_⟩
  simpa only [show (⟨0, 0, 0, 0, 0⟩ : Ledger) = 0 from rfl, zero_add] using hA'

/-- A call with the duty to free the data block finds the strong counter at zero: a second release underflows. -/
theorem sub_strong_again (hA : Agrees a o (⟨0, 1, 0, 0, 0⟩ + B) freed w) :
    ∃ prev w', process a.stack (o.ctrl.start + CTRL_STRONG_OFFSET) (o.ctrl.start + CTRL_STRONG_OFFSET + 8)
        (Refcount.subCounter 1) w = ⟨.ok (prev, true), w', [w]⟩ ∧ newlyFreed w w' = [] ∧
      Touches a.stack o freed freed w w' ∧ Agrees a o (⟨0, 1, 0, 0, 0⟩ + B) freed w' := by
  have hlast : 0 < (⟨0, 1, 0, 0, 0⟩ + B : Ledger).last := Nat.add_pos_left Nat.one_pos _
  have hk := Ledger.keep_pos (Ledger.watchers_of_last hlast)
  have hzero : leNat ((w.files a.stack).bytes.read (o.ctrl.start + CTRL_STRONG_OFFSET) 8) = 0 := by
    have hcount := hA.data_freed
    refine (hA.strong hk).trans ?_
    simp only [Ledger.phantom] at hcount
    split at hcount <;> omega
  have hsame : Refcount.subCounter 1 ((w.files a.stack).bytes.read (o.ctrl.start + CTRL_STRONG_OFFSET) 8) =
      ((w.files a.stack).bytes.read (o.ctrl.start + CTRL_STRONG_OFFSET) 8, 0, true) := by
    rw [Refcount.subCounter, if_neg (by omega), hzero]
  have ht : Touches a.stack o freed freed w (process a.stack (o.ctrl.start + CTRL_STRONG_OFFSET)
      (o.ctrl.start + CTRL_STRONG_OFFSET + 8) (Refcount.subCounter 1) w).final :=
    touches_process hA.quiet hwf (by decide) fun _ => length_subCounter
  have hrun := hA.process_counter hwf hk .strong (Refcount.subCounter 1)
  rw [hsame] at hrun
  rw [hrun] at ht
  exact ⟨0, _, hrun, newlyFreed_of_eq rfl, ht, hA.store_same hk .strong⟩

/-- The increment of an upgrade. It overflows only at the last value of the counter. -/
theorem bump_strong (hA : Agrees a o L freed w) (hk : 0 < L.keep) :
    ∃ result overflow w', process a.stack (o.ctrl.start + CTRL_STRONG_OFFSET)
        (o.ctrl.start + CTRL_STRONG_OFFSET + 8) Refcount.bumpCounter w = ⟨.ok (result, overflow), w', [w]⟩ ∧
      newlyFreed w w' = [] ∧ Touches a.stack o freed freed w w' ∧
      Agrees a o (if overflow ∨ result = none then L else ⟨1, 0, 0, 0, 0⟩ + L) freed w' ∧
      ((w.files a.stack).bytes.word (o.ctrl.start + CTRL_STRONG_OFFSET) + 1 < 2 ^ 64 → overflow = false) := by
  obtain ⟨result, overflow, w', hrun, hfreed, hA'⟩ := hA.bump_strong hwf hk
  have ht : Touches a.stack o freed freed w (process a.stack (o.ctrl.start + CTRL_STRONG_OFFSET)
      (o.ctrl.start + CTRL_STRONG_OFFSET + 8) Refcount.bumpCounter w).final :=
    touches_process hA.quiet hwf (by decide) fun _ => length_bumpCounter
  have hflag : (w.files a.stack).bytes.word (o.ctrl.start + CTRL_STRONG_OFFSET) + 1 < 2 ^ 64 →
      overflow = false := by
    intro hroom
    rw [hA.process_counter hwf hk .strong] at hrun
    have hout : _ = overflow := congrArg Prod.snd (Except.ok.inj (congrArg Run.out hrun))
    rw [← hout]
    exact bumpCounter_flag hroom
  rw [hrun] at ht
  exact ⟨result, overflow, w', hrun, newlyFreed_of_eq hfreed, ht, hA', hflag⟩

theorem free_data (hA : Agrees a o (⟨0, 1, 0, 0, 0⟩ + B) freed w) :
    deallocRange a o.data w = ⟨.ok (), w.release a.stack o.data, [w]⟩ ∧
      Touches a.stack o freed (freed ++ [(a.stack, o.data)]) w (w.release a.stack o.data) ∧
      Agrees a o (⟨0, 0, 1, 0, 0⟩ + B) (freed ++ [(a.stack, o.data)]) (w.release a.stack o.data) :=
  ⟨(hA.free_data hwf (Nat.zero_le 1)).1, .release hA.quiet (.inl rfl), (hA.free_data hwf (Nat.zero_le 1)).2⟩

theorem free_ctrl (hA : Agrees a o (⟨0, 0, 0, 1, 0⟩ + B) freed w) :
    deallocRange a o.ctrl w = ⟨.ok (), w.release a.stack o.ctrl, [w]⟩ ∧
      Touches a.stack o freed (freed ++ [(a.stack, o.ctrl)]) w (w.release a.stack o.ctrl) ∧
      Agrees a o B (freed ++ [(a.stack, o.ctrl)]) (w.release a.stack o.ctrl) := by
  obtain ⟨hrun, hA'⟩ := hA.free_ctrl hwf
  refine ⟨hrun, .release hA.quiet (.inr rfl), ?_⟩
  rwa [show (⟨0, 0, 0, 0, 0⟩ : Ledger) = 0 from rfl, zero_add] at hA'

end Phases

/-- The release of a block whose strong counter is at zero is over after one step. -/
theorem strongReleaseCtrl_code (hwf : WellFormed o) (data : Range) :
    strongReleaseCtrl a data o.ctrl = .step (process a.stack (o.ctrl.start + CTRL_STRONG_OFFSET)
      (o.ctrl.start + CTRL_STRONG_OFFSET + 8) (Refcount.subCounter 1)) fun
        | .ok (prev, false) => if prev = 1 then do
            dropBlock a data
            releaseWeak a o.ctrl
          else pure ()
        | .ok (_, true) => .done (.error Refcount.underflowErr)
        | .error e => .done (.error e) := by
  rw [strongReleaseCtrl, counterOff_strong hwf]
  exact fetchWith_strong hwf _ _ _

/-! ### Steps whose I/O fails -/

namespace Phase

/-- Where a call stands once its next step has failed. -/
def failed : Phase → Phase
  | set _ _ new => done (.ok (.recovered ioFault ⟨⟨new.ctrl.start, CONTROL_SIZE⟩⟩))
  | replace _ _ new => done (.ok (.recoveredValue ioFault new))
  | load σ ctrl _ | bump σ ctrl _ | unclaim σ ctrl _ _ => settle σ ctrl (.error ioFault)
  | forward σ ctrl size => unclaim σ ctrl size ioFault
  | retry σ ctrl _ e | releasing σ ctrl _ e => settle σ ctrl (.error e)
  | payWeak _ payer | freeCtrl _ payer => done (payer.finish (.error ioFault))
  | locate _ | dropStrong _ | freeData _ => done (.error ioFault)
  | done out => done out

/-- What is left of `w` once that step has failed: a block that was to be freed was handed in all the same. -/
def spent (a : Allocator) (w : World) : Phase → World
  | freeData h => w.handIn a.stack h.data
  | freeCtrl ctrl _ => w.handIn a.stack ctrl
  | _ => w

@[simp] theorem files_spent (ph : Phase) : (ph.spent a w).files = w.files := by
  cases ph <;> rfl

@[simp] theorem freed_spent (ph : Phase) : (ph.spent a w).freed = w.freed := by
  cases ph <;> rfl

theorem quiet_spent (ph : Phase) (hq : w.Quiet) : (ph.spent a w).Quiet := by
  cases ph <;> exact hq

/-- The code of a second release has its first step to make. -/
def Fresh (a : Allocator) : Phase → Prop
  | releasing _ ctrl code _ =>
      ∃ o : BStackRc, WellFormed o ∧ o.ctrl = ctrl ∧ ∃ data, code = strongReleaseCtrl a data ctrl
  | _ => True

theorem next_failing {ph : Phase} (hfresh : ph.Fresh a) (hrunning : ph.Running) (hq : w.Quiet) :
    ph.next a w.failing = (ph.failed, ph.spent a w) := by
  have htick := hq.failing_tick
  have hswap : ∀ (off : Nat) (data : List UInt8), swap a.stack off data w.failing = ⟨.error ioFault, w, [w.failing]⟩ :=
    fun _ _ => congrArg (Run.mk (.error ioFault) · [w.failing]) htick
  have hget : ∀ off n, getInto a.stack off n w.failing = ⟨.error ioFault, w, []⟩ :=
    fun _ _ => congrArg (Run.mk (.error ioFault) · []) htick
  have hread : ∀ off, readU64 a.stack off w.failing = ⟨.error ioFault, w, []⟩ :=
    fun _ => congrArg (Run.mk (.error ioFault) · []) htick
  have hfree : ∀ r, deallocRange a r w.failing = ⟨.error ioFault, w.handIn a.stack r, [w.failing]⟩ :=
    fun r => congrArg (fun v => Run.mk (.error ioFault) (v.handIn a.stack r) [w.failing]) htick
  have hprocess : ∀ {α : Type} (off stop : Nat) (f : List UInt8 → List UInt8 × α),
      process a.stack off stop f w.failing = ⟨.error ioFault, w, [w.failing]⟩ :=
    fun _ _ _ => congrArg (Run.mk (.error ioFault) · [w.failing]) htick
  cases ph with
  | releasing σ ctrl code e =>
      obtain ⟨o, hwf, rfl, data, rfl⟩ := hfresh
      simp only [next, strongReleaseCtrl_code hwf, Script.advance, hprocess, failed, spent]
  | done out => exact hrunning.elim
  | _ => simp only [next, hswap, hget, hread, hfree, hprocess, failed, spent]

end Phase

end WeakSlot

end BStackRaii
