import BStackRaii.Proof.Wal.Clone
/-!
# Crashes in a batch of frees

`commitFrees` stages its slices, flips the transaction and runs the frees. A slice of the flipped
transaction is owed, lost or freed: a crash between the mark of its entry and its free loses it.
Recovery moves each slice once through these stages, whatever crashes it meets itself.
-/

namespace BStackRaii

/-! ### Files and registries -/

/-- The allocator that serves a file id of the log of `a`. -/
def serving (a : Allocator) (hosts : Nat → Allocator) (fileId : Nat) : Allocator :=
  if fileId = FileId.SELF then a else hosts fileId

/-- The file and the block of a listed slice. -/
def place (a : Allocator) (hosts : Nat → Allocator) (p : Nat × Range) : Nat × Range :=
  ((serving a hosts p.1).stack, p.2)

/-- A registry attaches some of the files, the ones in `here` among them, each under its own host. -/
structure Serves (hosts : Nat → Allocator) (here : Nat → Bool) (reg : Nat → Option Allocator) :
    Prop where
  host : ∀ id, reg id = none ∨ reg id = some (hosts id)
  attached : ∀ id, here id = true → reg id = some (hosts id)

/-- A slice recovery can get at: in the log's own file, or in an attached one. -/
def reachable (here : Nat → Bool) (fileId : Nat) : Bool := fileId == FileId.SELF || here fileId

theorem resolve_serves {a : Allocator} {hosts : Nat → Allocator} {here : Nat → Bool} {w : World}
    (h : Serves hosts here w.attached) (id : Nat) :
    (HeldLock.resolve w a id = none ∧ reachable here id = false) ∨
      HeldLock.resolve w a id = some (serving a hosts id) := by
  rw [HeldLock.resolve, serving, reachable]
  by_cases hid : id = FileId.SELF
  · exact .inr (by rw [if_pos hid, if_pos hid])
  · rw [if_neg hid, if_neg hid]
    rcases h.host id with hnone | hsome
    · refine .inl ⟨hnone, ?_⟩
      cases hh : here id with
      | false => simp [hid]
      | true =>
          rw [h.attached id hh] at hnone
          cases hnone
    · exact .inr hsome

/-! ### The slices of a flipped transaction -/

/-- How far a listed slice has come. A lost one is marked in the log, still allocated, and was not handed in. -/
inductive Cell
  | owed
  | lost
  | freed
deriving DecidableEq, Repr

def itemEntry (it : (Nat × Range) × Cell) : WalEntry :=
  .deallocIn (if it.2 = .owed then .pending else .complete) it.1.1 it.1.2

def lostCount (here : Nat → Bool) (items : List ((Nat × Range) × Cell)) : Nat :=
  items.countP fun it => reachable here it.1.1 && decide (it.2 = .lost)

/-- What the file and the record of hand-ins say of a slice that has come this far. -/
def CellOk (a : Allocator) (hosts : Nat → Allocator) (before w : World)
    (it : (Nat × Range) × Cell) : Prop :=
  if it.2 = .freed then
    (place a hosts it.1).2 ∉ (w.files (place a hosts it.1).1).live ∧
      w.handed.count (place a hosts it.1) = before.handed.count (place a hosts it.1) + 1
  else
    (place a hosts it.1).2 ∈ (w.files (place a hosts it.1).1).live ∧
      w.handed.count (place a hosts it.1) = before.handed.count (place a hosts it.1)

/-- The flipped transaction, with every slice as far as `items` say. -/
structure Rolling (a : Allocator) (hosts : Nat → Allocator) (slot off cap : Nat) (before : World)
    (status : WalStatus) (items : List ((Nat × Range) × Cell)) (w : World) : Prop where
  log : LogAt a slot off status.toU8 cap (items.map itemEntry) (w.files a.stack)
  cells : ∀ it ∈ items, CellOk a hosts before w it

/-- The slices are in different places, none of them the log block. -/
structure Listed (a : Allocator) (hosts : Nat → Allocator) (off cap : Nat)
    (slices : List (Nat × Range)) : Prop where
  nodup : (slices.map (place a hosts)).Nodup
  apart : (a.stack, (WalBlock.at off cap).range) ∉ slices.map (place a hosts)

section Rolling

variable {a : Allocator} {hosts : Nat → Allocator} {here : Nat → Bool} {slot off cap : Nat}
  {before w : World} {status : WalStatus} {pre post : List ((Nat × Range) × Cell)} {p : Nat × Range}

theorem CellOk.store {it : (Nat × Range) × Cell} (k pos : Nat) (data : List UInt8)
    (h : CellOk a hosts before w it) : CellOk a hosts before (w.store k pos data) it := by
  unfold CellOk at h ⊢
  simpa only [World.live_store, World.handed_store] using h

theorem CellOk.release {it : (Nat × Range) × Cell} {x : Nat × Range}
    (h : CellOk a hosts before w it) (hne : place a hosts it.1 ≠ x) :
    CellOk a hosts before (w.release x.1 x.2) it := by
  have hcount : (w.release x.1 x.2).handed.count (place a hosts it.1) =
      w.handed.count (place a hosts it.1) := by
    rw [World.handed_release, List.count_append, List.count_singleton, if_neg (by simpa using hne.symm),
      Nat.add_zero]
  unfold CellOk at h ⊢
  simpa only [hcount, World.mem_live_release (k := x.1) (r := x.2) hne] using h

theorem CellOk.handIn {it : (Nat × Range) × Cell} {x : Nat × Range}
    (h : CellOk a hosts before w it) (hne : place a hosts it.1 ≠ x) :
    CellOk a hosts before (w.handIn x.1 x.2) it := by
  have hcount : (w.handIn x.1 x.2).handed.count (place a hosts it.1) =
      w.handed.count (place a hosts it.1) := by
    rw [World.handed_handIn, List.count_append, List.count_singleton, if_neg (by simpa using hne.symm),
      Nat.add_zero]
  unfold CellOk at h ⊢
  simpa only [hcount, World.files_handIn] using h

theorem Rolling.mark
    (h : Rolling a hosts slot off cap before status (pre ++ (p, .owed) :: post) w) :
    Rolling a hosts slot off cap before status (pre ++ (p, .lost) :: post)
      (w.store a.stack (off + WAL_HEADER_SIZE + pre.length * WAL_ENTRY_SIZE)
        [WalStatus.complete.toU8]) := by
  have hlog := h.log.mark (i := pre.length) (by simp)
  refine ⟨?_, fun it hit => ?_⟩
  · rw [World.files_store_same]
    simpa [itemEntry, HoldsWal.marked, WalEntry.deallocIn] using hlog
  · rw [List.mem_append, List.mem_cons] at hit
    rcases hit with hit | rfl | hit
    · exact (h.cells it (by simp [hit])).store ..
    · have hp := (h.cells (p, .owed) (by simp)).store a.stack
        (off + WAL_HEADER_SIZE + pre.length * WAL_ENTRY_SIZE) [WalStatus.complete.toU8]
      simpa [CellOk] using hp
    · exact (h.cells it (by simp [hit])).store ..

theorem Rolling.release
    (hlisted : Listed a hosts off cap ((pre ++ (p, .lost) :: post).map Prod.fst))
    (h : Rolling a hosts slot off cap before status (pre ++ (p, .lost) :: post) w) :
    Rolling a hosts slot off cap before status (pre ++ (p, .freed) :: post)
      (w.release (place a hosts p).1 (place a hosts p).2) := by
  have hnodup := hlisted.nodup
  rw [List.map_append, List.map_append, List.map_cons, List.map_cons, List.nodup_append] at hnodup
  obtain ⟨-, hcons, hdisj⟩ := hnodup
  have hp := h.cells (p, .lost) (by simp)
  simp only [CellOk, reduceCtorEq, if_false] at hp
  refine ⟨?_, fun it hit => ?_⟩
  · have hsame : (pre ++ (p, .freed) :: post).map itemEntry =
        (pre ++ (p, .lost) :: post).map itemEntry := by simp [itemEntry]
    rw [hsame]
    by_cases hk : a.stack = (place a hosts p).1
    · rw [← hk, World.files_release_same]
      refine h.log.free fun he => hlisted.apart ?_
      rw [hk, ← he]
      simp
    · rw [World.files_release_ne hk]
      exact h.log
  · rw [List.mem_append, List.mem_cons] at hit
    rcases hit with hit | rfl | hit
    · refine (h.cells it (by simp [hit])).release fun he => ?_
      exact hdisj _ (List.mem_map_of_mem (List.mem_map_of_mem hit)) _ (List.mem_cons_self ..) he
    · simp only [CellOk, if_true]
      refine ⟨World.not_mem_live_release, ?_⟩
      rw [World.handed_release, List.count_append, hp.2]
      simp
    · refine (h.cells it (by simp [hit])).release fun he => (List.nodup_cons.mp hcons).1 ?_
      exact he ▸ List.mem_map_of_mem (List.mem_map_of_mem hit)

end Rolling

/-! ### Recovery of a flipped transaction -/

section Flipped

variable {a : Allocator} {hosts : Nat → Allocator} {here : Nat → Bool} {slot off cap : Nat}
  {before : World} {slices : List (Nat × Range)}

/-- The process side of a recovery: no fault, and a registry of the known hosts. -/
def Serving (hosts : Nat → Allocator) (here : Nat → Bool) (w : World) : Prop :=
  w.Quiet ∧ Serves hosts here w.attached

/-- The transaction is flipped, and at most `lost` reachable slices are lost. -/
def Flipped (a : Allocator) (hosts : Nat → Allocator) (here : Nat → Bool) (slot off cap : Nat)
    (before : World) (slices : List (Nat × Range)) (lost : Nat) (w : World) : Prop :=
  ∃ items, items.map Prod.fst = slices ∧ lostCount here items ≤ lost ∧
    (Rolling a hosts slot off cap before .complete items w ∨
      Rolling a hosts slot off cap before .none items w ∧ ∀ it ∈ items, it.2 ≠ .owed)

/-- Every slice of the transaction is freed or lost, and the log is at `status`. -/
def Settled (a : Allocator) (hosts : Nat → Allocator) (here : Nat → Bool) (slot off cap : Nat)
    (before : World) (slices : List (Nat × Range)) (lost : Nat) (status : WalStatus) (w : World) :
    Prop :=
  ∃ items, items.map Prod.fst = slices ∧ lostCount here items ≤ lost ∧
    Rolling a hosts slot off cap before status items w ∧ ∀ it ∈ items, it.2 ≠ .owed

theorem lostCount_append (xs ys : List ((Nat × Range) × Cell)) :
    lostCount here (xs ++ ys) = lostCount here xs + lostCount here ys := List.countP_append ..

theorem lostCount_cons (it : (Nat × Range) × Cell) (xs : List ((Nat × Range) × Cell)) :
    lostCount here (it :: xs) = lostCount here xs +
      if reachable here it.1.1 && decide (it.2 = .lost) then 1 else 0 := List.countP_cons ..

/-- Behind the mark, a reachable slice is freed and any other one stays lost. -/
theorem freeRecorded_rolling {pre post : List ((Nat × Range) × Cell)} {p : Nat × Range}
    (hslices : (pre ++ (p, Cell.lost) :: post).map Prod.fst = slices)
    (hlisted : Listed a hosts off cap slices) (status : WalStatus) {C : World → Prop}
    (hC : ∀ w, Rolling a hosts slot off cap before status (pre ++ (p, .lost) :: post) w → C w) :
    Prog.Spec
      (fun w => Serving hosts here w ∧
        Rolling a hosts slot off cap before status (pre ++ (p, .lost) :: post) w)
      (HeldLock.freeRecorded a p.1 p.2)
      (fun _ w => ∃ c, (c ≠ .owed ∧ (reachable here p.1 = true → c = .freed)) ∧ Serving hosts here w ∧
        Rolling a hosts slot off cap before status (pre ++ (p, c) :: post) w)
      (fun _ _ => False) C := by
  refine Prog.Spec.of_run fun w ⟨hw, h⟩ => ?_
  rcases resolve_serves (a := a) hw.2 p.1 with ⟨hnone, hout⟩ | hsome
  · refine ⟨(), w, [], ?_, ⟨.lost, ⟨by simp, by simp [hout]⟩, hw, h⟩, by simp⟩
    simp only [HeldLock.freeRecorded, hnone]
    rfl
  · have hcell := h.cells (p, .lost) (by simp)
    simp only [CellOk, reduceCtorEq, if_false] at hcell
    have hrun := deallocRange_run (a := serving a hosts p.1) hw.1 hcell.1
    refine ⟨(), w.release (place a hosts p).1 (place a hosts p).2, [w], ?_,
      ⟨.freed, ⟨by simp, fun _ => rfl⟩, hw, h.release (hslices ▸ hlisted)⟩, ?_⟩
    · simp only [HeldLock.freeRecorded, hsome]
      exact hrun
    · intro t ht
      rw [List.mem_singleton.mp ht]
      exact hC w h

/-- The recovery loop, by induction on the entries it has left. A crash point inside it has lost at
most one slice more. -/
theorem finishEntries_rolling (hlisted : Listed a hosts off cap slices) {lost : Nat}
    (post : List ((Nat × Range) × Cell)) :
    ∀ (pre : List ((Nat × Range) × Cell)) (n : Nat), (pre ++ post).map Prod.fst = slices →
      (∀ it ∈ pre, it.2 ≠ .owed) → lostCount here (pre ++ post) ≤ lost →
      Prog.Spec
        (fun w => Serving hosts here w ∧
          Rolling a hosts slot off cap before .complete (pre ++ post) w)
        (HeldLock.finishEntries a true (off + WAL_HEADER_SIZE) pre.length (post.map itemEntry) n)
        (fun _ w => Serving hosts here w ∧
          Settled a hosts here slot off cap before slices lost .complete w)
        (fun _ _ => False) (Flipped a hosts here slot off cap before slices (lost + 1)) := by
  induction post with
  | nil =>
      intro pre n hslices hpre hlost
      rw [List.append_nil] at *
      exact Prog.Spec.pure fun w h => ⟨h.1, pre, hslices, hlost, h.2, hpre⟩
  | cons it post ih =>
      intro pre n hslices hpre hlost
      obtain ⟨p, c⟩ := it
      have hnext : ∀ {c' : Cell}, (pre ++ [(p, c')]).length = pre.length + 1 := by simp
      by_cases hc : c = .owed
      · subst hc
        have horphan : HeldLock.orphan true (itemEntry (p, .owed)) = some p.2 := rfl
        have hmid : lostCount here (pre ++ (p, .lost) :: post) ≤ lost + 1 := by
          rw [lostCount_append, lostCount_cons] at hlost ⊢
          split <;> omega
        rw [List.map_cons]
        simp only [HeldLock.finishEntries, horphan]
        refine Prog.Spec.bind (Q := fun _ w => Serving hosts here w ∧
            Rolling a hosts slot off cap before .complete (pre ++ (p, .lost) :: post) w) ?_ fun _ => ?_
        · refine Prog.Spec.of_run fun w hstate => ?_
          obtain ⟨hw, h⟩ := hstate
          have hstop := h.log.stop_le
          have hcount := h.log.entries_le
          have hslot : pre.length * WAL_ENTRY_SIZE + WAL_ENTRY_SIZE ≤
              ((pre ++ (p, Cell.owed) :: post).map itemEntry).length * WAL_ENTRY_SIZE := by
            rw [← Nat.succ_mul]
            refine Nat.mul_le_mul_right _ ?_
            simp only [List.length_map, List.length_append, List.length_cons]
            omega
          refine ⟨(), _, [w], set_run _ _ _ hw.1 ?_, ⟨hw, h.mark⟩, fun t ht => ?_⟩
          · simp only [List.length_singleton, WAL_ENTRY_SIZE] at *
            omega
          · rw [List.mem_singleton.mp ht]
            exact ⟨_, hslices, Nat.le_succ_of_le hlost, .inl h⟩
        · refine Prog.Spec.bind (freeRecorded_rolling (by simpa using hslices) hlisted .complete
            fun w h => ⟨_, by simpa using hslices, hmid, .inl h⟩) fun _ => ?_
          refine Prog.Spec.exists fun c' => ?_
          by_cases hc' : c' ≠ .owed ∧ (reachable here p.1 = true → c' = .freed)
          · have hrest := ih (pre ++ [(p, c')]) (n + 1) (by simpa using hslices) (fun it hit => by
                rcases List.mem_append.mp hit with hit | hit
                · exact hpre it hit
                · rw [List.mem_singleton.mp hit]
                  exact hc'.1) (by
                rw [lostCount_append, lostCount_cons] at hlost
                rw [List.append_assoc, List.singleton_append, lostCount_append, lostCount_cons]
                have hzero : (reachable here p.1 && decide (c' = .lost)) = false := by
                  cases hr : reachable here p.1 with
                  | false => rfl
                  | true => simp [hc'.2 hr]
                simp only [hzero, Bool.false_eq_true, if_false]
                omega)
            rw [hnext] at hrest
            refine hrest.weaken (fun w hw => ⟨hw.2.1, ?_⟩) (fun _ _ h => h) (fun _ _ h => h)
              fun _ h => h
            rw [List.append_assoc]
            exact hw.2.2
          · exact fun w hw => absurd hw.1 hc'
      · have horphan : HeldLock.orphan true (itemEntry (p, c)) = none := by
          cases c with
          | owed => exact absurd rfl hc
          | lost => rfl
          | freed => rfl
        rw [List.map_cons]
        simp only [HeldLock.finishEntries, horphan]
        have hrest := ih (pre ++ [(p, c)]) n (by simpa using hslices) (fun it hit => by
          rcases List.mem_append.mp hit with hit | hit
          · exact hpre it hit
          · rw [List.mem_singleton.mp hit]
            exact hc) (by simpa using hlost)
        rw [hnext] at hrest
        simpa using hrest

theorem Rolling.idle {items : List ((Nat × Range) × Cell)} {status : WalStatus} {w : World}
    (h : Rolling a hosts slot off cap before status items w) :
    Rolling a hosts slot off cap before .none items
      (w.store a.stack (off + WAL_STATUS_OFFSET) [WalStatus.none.toU8]) := by
  refine ⟨?_, fun it hit => (h.cells it hit).store ..⟩
  rw [World.files_store_same]
  exact h.log.set_status _

/-- Recovery of a flipped transaction settles it. A crash inside loses one slice more. -/
theorem heldFinish_flipped (hseq : a.atomicBulk = false) (hlisted : Listed a hosts off cap slices)
    (hcap : cap ≤ WAL_MAX_CAP) (lost : Nat) :
    Prog.Spec
      (fun w => Serving hosts here w ∧ Flipped a hosts here slot off cap before slices lost w)
      (HeldLock.finish a)
      (fun _ w => Settled a hosts here slot off cap before slices lost .none w)
      (fun _ _ => False) (Flipped a hosts here slot off cap before slices (lost + 1)) := by
  rintro w ⟨hw, items, hslices, hlost, h⟩
  rcases h with h | ⟨h, hdone⟩
  · have hload := load_logAt hw.1 h.log hcap
    have hspec : Prog.Spec
        (fun w => Serving hosts here w ∧ Rolling a hosts slot off cap before .complete items w)
        (HeldLock.reclaim a true (off + WAL_HEADER_SIZE) (items.map itemEntry) >>= fun completed =>
          HeldLock.setIdle a off >>= fun _ => pure completed)
        (fun _ w => Settled a hosts here slot off cap before slices lost .none w)
        (fun _ _ => False) (Flipped a hosts here slot off cap before slices (lost + 1)) := by
      refine Prog.Spec.bind (Q := fun _ w => Serving hosts here w ∧
        Settled a hosts here slot off cap before slices lost .complete w) ?_ fun n => ?_
      · rw [HeldLock.reclaim, hseq]
        exact finishEntries_rolling hlisted items [] 0 (by simpa using hslices) (by simp)
          (by simpa using hlost)
      · refine Prog.Spec.bind (Q := fun _ w =>
          Settled a hosts here slot off cap before slices lost .none w) ?_ fun _ => Prog.Spec.pure fun _ h => h
        refine Prog.Spec.of_run fun w hstate => ?_
        obtain ⟨hw, items, hs, hl, hroll, hdone⟩ := hstate
        have hstop := hroll.log.stop_le
        refine ⟨(), _, [w], set_run _ _ _ hw.1 ?_, ⟨items, hs, hl, hroll.idle, hdone⟩, fun t ht => ?_⟩
        · simp only [List.length_singleton, WAL_STATUS_OFFSET, WAL_HEADER_SIZE] at *
          omega
        · rw [List.mem_singleton.mp ht]
          exact ⟨items, hs, Nat.le_succ_of_le hl, .inl hroll⟩
    have hrun : HeldLock.finish a w = (HeldLock.reclaim a true (off + WAL_HEADER_SIZE)
        (items.map itemEntry) >>= fun completed => HeldLock.setIdle a off >>= fun _ => pure completed) w := by
      rw [HeldLock.finish, Prog.bind_of_ok hload]
      rfl
    rw [hrun]
    exact hspec w ⟨hw, h⟩
  · have hrun : HeldLock.finish a w = ⟨.ok 0, w, []⟩ := by
      rw [HeldLock.finish, Prog.bind_of_ok (load_logAt hw.1 h.log hcap)]
      rfl
    rw [hrun]
    exact ⟨fun _ _ => ⟨items, hslices, hlost, h, hdone⟩, fun _ he => (by cases he), fun _ ht => (by cases ht)⟩

end Flipped

/-! ### Recovery of a transaction that owes none of the slices -/

section Unflipped

variable {a : Allocator} {hosts : Nat → Allocator} {here : Nat → Bool} {slot off cap : Nat}
  {before w : World} {status : UInt8} {entries : List WalEntry} {slices : List (Nat × Range)}

/-- No listed slice was freed. -/
def Untouched (a : Allocator) (hosts : Nat → Allocator) (before : World)
    (slices : List (Nat × Range)) (w : World) : Prop :=
  ∀ p ∈ slices, CellOk a hosts before w (p, .owed)

/-- The log is in place, and owes neither a listed slice nor its own block. -/
structure Guarded (a : Allocator) (hosts : Nat → Allocator) (slot off cap : Nat) (before : World)
    (slices : List (Nat × Range)) (status : UInt8) (entries : List WalEntry) (w : World) : Prop where
  untouched : Untouched a hosts before slices w
  log : LogAt a slot off status cap entries (w.files a.stack)
  apart : (a.stack, (WalBlock.at off cap).range) ∉ slices.map (place a hosts)
  others : ∀ q ∈ owedBy (WalStatus.fromU8 status) entries,
    place a hosts q ∉ slices.map (place a hosts) ∧
      place a hosts q ≠ (a.stack, (WalBlock.at off cap).range)

/-- No listed slice was freed, and none is owed by the log there is. -/
def Unflipped (a : Allocator) (hosts : Nat → Allocator) (slot : Nat) (before : World)
    (slices : List (Nat × Range)) (w : World) : Prop :=
  Untouched a hosts before slices w ∧ NoLog a slot (w.files a.stack) ∨
    ∃ off cap status entries, Guarded a hosts slot off cap before slices status entries w

theorem Unflipped.untouched (h : Unflipped a hosts slot before slices w) :
    Untouched a hosts before slices w := by
  rcases h with h | ⟨_, _, _, _, h⟩
  · exact h.1
  · exact h.untouched

theorem Guarded.unflipped (h : Guarded a hosts slot off cap before slices status entries w) :
    Unflipped a hosts slot before slices w := .inr ⟨_, _, _, _, h⟩

theorem orphan_marked (committed : Bool) (e : WalEntry) :
    HeldLock.orphan committed (HoldsWal.marked e) = none := rfl

theorem owedBy_marked {pre post : List WalEntry} {e : WalEntry} {st : WalStatus} {q : Nat × Range}
    (h : q ∈ owedBy st (pre ++ HoldsWal.marked e :: post)) : q ∈ owedBy st (pre ++ e :: post) := by
  rw [owedBy_eq] at h ⊢
  split at h
  · cases h
  · rename_i hst
    rw [if_neg hst]
    simp only [orphans, List.filterMap_append, List.filterMap_cons, orphan_marked, Option.map_none,
      List.mem_append] at h ⊢
    rcases h with h | h
    · exact .inl h
    · right
      split
      · exact h
      · exact List.mem_cons_of_mem _ h

theorem Guarded.mark {pre post : List WalEntry} {e : WalEntry}
    (h : Guarded a hosts slot off cap before slices status (pre ++ e :: post) w) :
    Guarded a hosts slot off cap before slices status (pre ++ HoldsWal.marked e :: post)
      (w.store a.stack (off + WAL_HEADER_SIZE + pre.length * WAL_ENTRY_SIZE)
        [WalStatus.complete.toU8]) := by
  have hlog := h.log.mark (i := pre.length) (by simp)
  refine ⟨fun p hp => (h.untouched p hp).store .., ?_, h.apart, fun q hq => h.others q (owedBy_marked hq)⟩
  rw [World.files_store_same]
  simpa using hlog

theorem Guarded.release {q : Nat × Range} (hlisted : place a hosts q ∉ slices.map (place a hosts))
    (hblock : place a hosts q ≠ (a.stack, (WalBlock.at off cap).range))
    (h : Guarded a hosts slot off cap before slices status entries w) :
    Guarded a hosts slot off cap before slices status entries
      (w.release (place a hosts q).1 (place a hosts q).2) := by
  refine ⟨fun p hp => (h.untouched p hp).release fun he => hlisted ?_, ?_, h.apart, h.others⟩
  · exact he ▸ List.mem_map_of_mem hp
  · by_cases hk : a.stack = (place a hosts q).1
    · rw [← hk, World.files_release_same]
      exact h.log.free fun he => hblock (Prod.ext hk.symm he)
    · rw [World.files_release_ne hk]
      exact h.log

theorem Guarded.handIn {q : Nat × Range} (hlisted : place a hosts q ∉ slices.map (place a hosts))
    (h : Guarded a hosts slot off cap before slices status entries w) :
    Guarded a hosts slot off cap before slices status entries
      (w.handIn (place a hosts q).1 (place a hosts q).2) :=
  ⟨fun p hp => (h.untouched p hp).handIn fun he => hlisted (he ▸ List.mem_map_of_mem hp), h.log, h.apart, h.others⟩

theorem Guarded.idle (h : Guarded a hosts slot off cap before slices status entries w) :
    Guarded a hosts slot off cap before slices WalStatus.none.toU8 entries
      (w.store a.stack (off + WAL_STATUS_OFFSET) [WalStatus.none.toU8]) := by
  refine ⟨fun p hp => (h.untouched p hp).store .., ?_, h.apart, fun q hq => ?_⟩
  · rw [World.files_store_same]
    exact h.log.set_status _
  · rw [WalStatus.fromU8_toU8, owedBy_eq, if_pos rfl] at hq
    cases hq

/-- A recovery loop over entries that owe other slices leaves the listed ones alone, also where it
fails. -/
theorem finishEntries_guarded (hst : WalStatus.fromU8 status ≠ .none) (post : List WalEntry) :
    ∀ (pre : List WalEntry) (n : Nat),
      Prog.Spec
        (fun w => Serving hosts here w ∧
          Guarded a hosts slot off cap before slices status (pre ++ post) w)
        (HeldLock.finishEntries a (decide (WalStatus.fromU8 status = .complete))
          (off + WAL_HEADER_SIZE) pre.length post n)
        (fun _ w => Serving hosts here w ∧
          ∃ entries, Guarded a hosts slot off cap before slices status entries w)
        (fun _ w => Unflipped a hosts slot before slices w)
        (Unflipped a hosts slot before slices) := by
  induction post with
  | nil =>
      intro pre n
      exact Prog.Spec.pure fun w h => ⟨h.1, _, h.2⟩
  | cons e post ih =>
      intro pre n
      have hnext : ∀ e' : WalEntry, (pre ++ [e']).length = pre.length + 1 := by simp
      cases ho : HeldLock.orphan (decide (WalStatus.fromU8 status = .complete)) e with
      | none =>
          simp only [HeldLock.finishEntries, ho]
          have hrest := ih (pre ++ [e]) n
          rw [hnext] at hrest
          simpa using hrest
      | some r =>
          simp only [HeldLock.finishEntries, ho]
          have howed : (e.fileId, r) ∈ owedBy (WalStatus.fromU8 status) (pre ++ e :: post) := by
            rw [owedBy_eq, if_neg hst, orphans, List.filterMap_append, List.mem_append]
            right
            rw [← orphans, orphans_cons_some post ho]
            exact List.mem_cons_self ..
          refine Prog.Spec.bind (Q := fun _ w => Serving hosts here w ∧
            (place a hosts (e.fileId, r) ∉ slices.map (place a hosts) ∧
              place a hosts (e.fileId, r) ≠ (a.stack, (WalBlock.at off cap).range)) ∧
            Guarded a hosts slot off cap before slices status
              (pre ++ HoldsWal.marked e :: post) w) ?_ fun _ => ?_
          · refine Prog.Spec.of_run fun w hstate => ?_
            obtain ⟨hw, h⟩ := hstate
            have hstop := h.log.stop_le
            have hcount := h.log.entries_le
            have hslot : pre.length * WAL_ENTRY_SIZE + WAL_ENTRY_SIZE ≤
                (pre ++ e :: post).length * WAL_ENTRY_SIZE := by
              rw [← Nat.succ_mul]
              refine Nat.mul_le_mul_right _ ?_
              simp only [List.length_append, List.length_cons]
              omega
            refine ⟨(), _, [w], set_run _ _ _ hw.1 ?_, ⟨hw, h.others _ howed, h.mark⟩, fun t ht => ?_⟩
            · simp only [List.length_singleton, WAL_ENTRY_SIZE] at *
              omega
            · rw [List.mem_singleton.mp ht]
              exact h.unflipped
          · have hrest := ih (pre ++ [HoldsWal.marked e]) (n + 1)
            rw [hnext] at hrest
            simp only [List.append_assoc, List.singleton_append] at hrest
            refine Prog.Spec.bind (Q := fun _ w => Serving hosts here w ∧
              Guarded a hosts slot off cap before slices status
                (pre ++ HoldsWal.marked e :: post) w) ?_ fun _ => hrest
            rintro w ⟨hw, ⟨hlisted, hblock⟩, h⟩
            rcases resolve_serves (a := a) hw.2 e.fileId with ⟨hnone, -⟩ | hsome
            · have hrun : HeldLock.freeRecorded a e.fileId r w = ⟨.ok (), w, []⟩ := by
                simp only [HeldLock.freeRecorded, hnone]
                rfl
              rw [hrun]
              exact ⟨fun _ _ => ⟨hw, h⟩, fun _ he => (by cases he), fun _ ht => (by cases ht)⟩
            · have hrun : HeldLock.freeRecorded a e.fileId r w =
                  deallocRange (serving a hosts e.fileId) r w := by
                simp only [HeldLock.freeRecorded, hsome]
              rw [hrun]
              rcases deallocRange_cases (serving a hosts e.fileId) r hw.1 with hfree | hfree
              · rw [hfree]
                refine ⟨fun _ hok => (by cases hok), fun _ _ => (h.handIn hlisted).unflipped, fun t ht => ?_⟩
                rw [List.mem_singleton.mp ht]
                exact h.unflipped
              · rw [hfree]
                refine ⟨fun _ _ => ⟨hw, h.release hlisted hblock⟩, fun _ he => (by cases he),
                  fun t ht => ?_⟩
                rw [List.mem_singleton.mp ht]
                exact h.unflipped

/-- Recovery before the flip frees no listed slice. -/
theorem heldFinish_unflipped (hseq : a.atomicBulk = false) :
    Prog.Spec (fun w => Serving hosts here w ∧ Unflipped a hosts slot before slices w)
      (HeldLock.finish a) (fun _ w => Unflipped a hosts slot before slices w)
      (fun _ w => Unflipped a hosts slot before slices w) (Unflipped a hosts slot before slices) := by
  rintro w ⟨hw, h⟩
  have hstay : ∀ out : Except IoError Nat, HeldLock.finish a w = ⟨out, w, []⟩ →
      (∀ n, (HeldLock.finish a w).out = .ok n → Unflipped a hosts slot before slices
        (HeldLock.finish a w).final) ∧
      (∀ e, (HeldLock.finish a w).out = .error e → Unflipped a hosts slot before slices
        (HeldLock.finish a w).final) ∧
      ∀ t ∈ (HeldLock.finish a w).cuts, Unflipped a hosts slot before slices t := by
    intro out hrun
    rw [hrun]
    exact ⟨fun _ _ => h, fun _ _ => h, fun _ ht => (by cases ht)⟩
  rcases h with ⟨hun, hno⟩ | ⟨off, cap, status, entries, hg⟩
  · exact hstay _ (heldFinish_noLog hw.1 hno)
  by_cases hmax : WAL_MAX_CAP < cap
  · exact hstay _ (heldFinish_oversized hw.1 hg.log hmax)
  have hload := load_logAt hw.1 hg.log (Nat.not_lt.mp hmax)
  by_cases hnone : WalStatus.fromU8 status = .none
  · refine hstay (.ok 0) ?_
    rw [HeldLock.finish, Prog.bind_of_ok hload]
    simp only
    rw [show WalHeader.txnStatus ⟨WAL_MAGIC, status, entries.length, cap⟩ = WalStatus.fromU8 status
      from rfl, if_pos hnone]
    rfl
  have hrun : HeldLock.finish a w = (HeldLock.reclaim a (decide (WalStatus.fromU8 status = .complete))
      (off + WAL_HEADER_SIZE) entries >>= fun completed =>
        HeldLock.setIdle a off >>= fun _ => pure completed) w := by
    rw [HeldLock.finish, Prog.bind_of_ok hload]
    simp only
    rw [show WalHeader.txnStatus ⟨WAL_MAGIC, status, entries.length, cap⟩ = WalStatus.fromU8 status
      from rfl, if_neg hnone]
    rfl
  rw [hrun]
  have hspec : Prog.Spec
      (fun w => Serving hosts here w ∧ Guarded a hosts slot off cap before slices status entries w)
      (HeldLock.reclaim a (decide (WalStatus.fromU8 status = .complete)) (off + WAL_HEADER_SIZE)
        entries >>= fun completed => HeldLock.setIdle a off >>= fun _ => pure completed)
      (fun _ w => Unflipped a hosts slot before slices w)
      (fun _ w => Unflipped a hosts slot before slices w) (Unflipped a hosts slot before slices) := by
    refine Prog.Spec.bind (Q := fun _ w => Serving hosts here w ∧
      ∃ entries, Guarded a hosts slot off cap before slices status entries w) ?_ fun n => ?_
    · rw [HeldLock.reclaim, hseq]
      exact finishEntries_guarded hnone entries [] 0
    · refine Prog.Spec.bind (Q := fun _ w => Unflipped a hosts slot before slices w) ?_
        fun _ => Prog.Spec.pure fun _ h => h
      refine Prog.Spec.of_run fun w hstate => ?_
      obtain ⟨hw, entries, h⟩ := hstate
      have hstop := h.log.stop_le
      refine ⟨(), _, [w], set_run _ _ _ hw.1 ?_, h.idle.unflipped, fun t ht => ?_⟩
      · simp only [List.length_singleton, WAL_STATUS_OFFSET, WAL_HEADER_SIZE] at *
        omega
      · rw [List.mem_singleton.mp ht]
        exact h.unflipped
  exact hspec w ⟨hw, hg⟩

end Unflipped

/-! ### Staging the frees -/

section Staging

variable {a : Allocator} {hosts : Nat → Allocator} {here : Nat → Bool} {slot off cap : Nat}
  {before w : World} {status : UInt8} {entries : List WalEntry} {slices : List (Nat × Range)}

/-- The contract of `commit_frees`: live blocks, each listed once, that nobody else will free, the
log included. -/
structure SafeFrees (a : Allocator) (hosts : Nat → Allocator) (slot : Nat)
    (slices : List (Nat × Range)) (w : World) : Prop where
  ids : ∀ p ∈ slices, p.1 < 2 ^ 32
  live : ∀ p ∈ slices, (place a hosts p).2 ∈ (w.files (place a hosts p).1).live
  nodup : (slices.map (place a hosts)).Nodup
  unowed : ∀ q ∈ owed (w.files a.stack) slot, place a hosts q ∉ slices.map (place a hosts)
  block : ∀ off cap status entries, LogAt a slot off status cap entries (w.files a.stack) →
    (a.stack, (WalBlock.at off cap).range) ∉
      (slices ++ owed (w.files a.stack) slot).map (place a hosts)

theorem Untouched.grant {r : Range} {h : (w.files a.stack).Admits r}
    (hun : Untouched a hosts before slices w) :
    Untouched a hosts before slices (w.grant a.stack r h) := by
  intro p hp
  have hcell := hun p hp
  simp only [CellOk, reduceCtorEq, if_false] at hcell ⊢
  exact ⟨World.mem_live_grant hcell.1, hcell.2⟩

theorem Untouched.store {k pos : Nat} {data : List UInt8} (hun : Untouched a hosts before slices w) :
    Untouched a hosts before slices (w.store k pos data) := fun p hp => (hun p hp).store ..

def freeEntries (slices : List (Nat × Range)) : List WalEntry :=
  slices.map fun p => .deallocIn .pending p.1 p.2

theorem freeEntries_eq (slices : List (Nat × Range)) :
    (slices.map fun p => (p, Cell.owed)).map itemEntry = freeEntries slices := by
  rw [freeEntries, List.map_map]
  rfl

/-- Before the flip, staged frees are owed by nobody. -/
theorem owedBy_freeEntries (slices : List (Nat × Range)) :
    owedBy (WalStatus.fromU8 WalStatus.pending.toU8) (freeEntries slices) = [] := by
  rw [WalStatus.fromU8_toU8, owedBy_eq, if_neg (by decide), orphans, freeEntries]
  refine List.filterMap_eq_nil_iff.mpr fun e he => ?_
  obtain ⟨p, -, rfl⟩ := List.mem_map.mp he
  rfl

theorem freeEntries_fit {w : World} (hsafe : SafeFrees a hosts slot slices w) :
    ∀ e ∈ freeEntries slices, e.Fits := by
  intro e he
  obtain ⟨p, hp, rfl⟩ := List.mem_map.mp he
  have hstop := ((w.files _).inside _ (hsafe.live p hp)).2
  have hlt := (w.files (place a hosts p).1).addressable
  rw [Range.stop] at hstop
  simp only [place] at hstop hlt
  exact ⟨hsafe.ids p hp, by simp only [WalEntry.deallocIn]; omega, by simp only [WalEntry.deallocIn]; omega⟩

theorem fresh_not_listed {f : World} {r : Range} (hr : (f.files a.stack).Admits r)
    (hun : Untouched a hosts before slices f) : (a.stack, r) ∉ slices.map (place a hosts) := by
  intro hm
  obtain ⟨p, hp, he⟩ := List.mem_map.mp hm
  have hcell := hun p hp
  simp only [CellOk, reduceCtorEq, if_false, he] at hcell
  exact Range.not_apart_self _ (hr.2.2 r hcell.1)

/-- What staging leaves behind when it returns: the frees, staged in a block of enough slots. -/
structure Staged (a : Allocator) (hosts : Nat → Allocator) (slot off cap : Nat) (before : World)
    (slices : List (Nat × Range)) (w : World) : Prop where
  untouched : Untouched a hosts before slices w
  log : LogAt a slot off WalStatus.pending.toU8 cap (freeEntries slices) (w.files a.stack)
  apart : (a.stack, (WalBlock.at off cap).range) ∉ slices.map (place a hosts)
  capacity : slices.length ≤ WAL_MAX_CAP → cap ≤ WAL_MAX_CAP

theorem Staged.unflipped (h : Staged a hosts slot off cap before slices w) :
    Unflipped a hosts slot before slices w :=
  .inr ⟨off, cap, _, _, h.untouched, h.log, h.apart, by
    rw [owedBy_freeEntries]
    simp⟩

theorem staged_of_image (hsafe : SafeFrees a hosts slot slices before)
    (hun : Untouched a hosts before slices w)
    (hat : LogAt a slot off status cap entries (w.files a.stack)) (hle : slices.length ≤ cap)
    (hapart : (a.stack, (WalBlock.at off cap).range) ∉ slices.map (place a hosts))
    (hcap : slices.length ≤ WAL_MAX_CAP → cap ≤ WAL_MAX_CAP) :
    Staged a hosts slot off cap before slices
      (w.store a.stack off (blockImage (freeEntries slices) .pending cap)) := by
  refine ⟨hun.store, ?_, hapart, hcap⟩
  rw [World.files_store_same]
  exact hat.image .pending (freeEntries_fit hsafe) (by simpa [freeEntries] using hle)

/-- What a run that stages the frees, from `w`, leaves: every state in and after it owes none of them. -/
structure Stages (a : Allocator) (hosts : Nat → Allocator) (slot : Nat) (before : World)
    (slices : List (Nat × Range)) (w : World) (r : Run IoError World WalBlock) : Prop where
  states : ∀ t ∈ r.states, Unflipped a hosts slot before slices t
  staged : ∀ block, r.out = .ok block → ∃ off cap, block = WalBlock.at off cap ∧
    Staged a hosts slot off cap before slices r.final ∧ r.final.Quiet ∧ r.final.attached = w.attached

theorem Stages.refused {e : IoError} {w' : World} {cs : List World}
    (hstates : ∀ t ∈ cs, Unflipped a hosts slot before slices t) (hlast : Unflipped a hosts slot before slices w') :
    Stages a hosts slot before slices w ⟨.error e, w', cs⟩ where
  states := by
    intro t ht
    cases List.mem_append.mp ht with
    | inl ht => exact hstates t ht
    | inr ht =>
        rw [List.mem_singleton.mp ht]
        exact hlast
  staged := by rintro block ⟨⟩

theorem Untouched.of_same {w w' : World} (h : Untouched a hosts before slices w) (hfiles : w'.files = w.files)
    (hhanded : w'.handed = w.handed) : Untouched a hosts before slices w' := by
  intro p hp
  have hcell := h p hp
  simpa only [CellOk, hfiles, hhanded] using hcell

section Frees

variable (hsafe : SafeFrees a hosts slot slices before) (hun : Untouched a hosts before slices w) (hq : w.Quiet)
include hsafe hun hq

omit hsafe hun hq in
theorem freshCapacity_of_frees (slices : List (Nat × Range)) :
    slices.length ≤ HeldLock.freshCapacity (freeEntries slices).length ∧ (slices.length ≤ WAL_MAX_CAP →
      HeldLock.freshCapacity (freeEntries slices).length ≤ WAL_MAX_CAP) := by
  have hlen : (freeEntries slices).length = slices.length := List.length_map _
  have hroom := le_freshCapacity (freeEntries slices).length
  exact ⟨by omega, fun h => freshCapacity_le_max (by rwa [hlen])⟩

theorem persist_absent (hno : NoLog a slot (w.files a.stack)) :
    Stages a hosts slot before slices w (HeldLock.persist a (freeEntries slices) .pending w) := by
  obtain ⟨hroom, hcapacity⟩ := freshCapacity_of_frees slices
  have hstart : Unflipped a hosts slot before slices w := .inl ⟨hun, hno⟩
  rcases persist_noLog_cases (freeEntries slices) .pending hq hno with
    ⟨e, w', hrun, hfiles, -, hhanded⟩ | ⟨p, c, h, hc, hrun⟩
  · rw [hrun]
    refine .refused (fun t ht => ?_) (.inl ⟨hun.of_same hfiles hhanded, by rwa [hfiles]⟩)
    rw [List.mem_singleton.mp ht]
    exact hstart
  · have hlinked : Untouched a hosts before slices (linked w a.stack slot p c h) := hun.grant.store.store
    have hat := logAt_linked hno.anchor hno.reserved h
    have hapart := fresh_not_listed h hun
    have hstaged := staged_of_image hsafe hlinked hat (hc ▸ hroom) hapart (hc ▸ hcapacity)
    obtain ⟨hg, hi⟩ := hno.initialised (h := h)
    rw [hrun]
    refine ⟨fun t ht => ?_, fun block hok => ?_⟩
    · simp only [Run.states, List.mem_append, List.mem_cons, List.not_mem_nil, or_false] at ht
      rcases ht with (rfl | rfl | rfl | rfl) | rfl
      · exact hstart
      · exact .inl ⟨hun.grant, hg⟩
      · exact .inl ⟨hun.grant.store, hi⟩
      · exact .inr ⟨p, c, _, [], hlinked, hat, hapart, fun q hq => by cases hq⟩
      · exact hstaged.unflipped
    · cases hok
      exact ⟨p, c, rfl, hstaged, hq, rfl⟩

theorem persist_block (hat : LogAt a slot off status cap entries (w.files a.stack))
    (hblock : (a.stack, (WalBlock.at off cap).range) ∉ slices.map (place a hosts))
    (hothers : ∀ q ∈ owedBy (WalStatus.fromU8 status) entries, place a hosts q ∉ slices.map (place a hosts) ∧
      place a hosts q ≠ (a.stack, (WalBlock.at off cap).range)) :
    Stages a hosts slot before slices w (HeldLock.persist a (freeEntries slices) .pending w) := by
  obtain ⟨hroom, hcapacity⟩ := freshCapacity_of_frees slices
  have hstart : Unflipped a hosts slot before slices w := .inr ⟨_, _, _, _, hun, hat, hblock, hothers⟩
  rcases persist_logAt_cases (freeEntries slices) .pending hq hat with
    ⟨e, w', cs, hrun, hcs, hfiles, -, hhanded⟩ | ⟨hmax, hfit, hrun⟩ | ⟨hmax, -, p, c, h, hc, hrun⟩
  · rw [hrun]
    refine .refused (fun t ht => ?_) (.inr ⟨_, _, _, _, hun.of_same hfiles hhanded, by rwa [hfiles], hblock, hothers⟩)
    rw [hcs t ht]
    exact hstart
  · have hlen : (freeEntries slices).length = slices.length := List.length_map _
    have hstaged := staged_of_image hsafe hun hat (by rwa [← hlen]) hblock fun _ => hmax
    rw [hrun]
    refine ⟨fun t ht => ?_, fun block hok => ?_⟩
    · simp only [Run.states, List.mem_append, List.mem_cons, List.not_mem_nil, or_false] at ht
      rcases ht with rfl | rfl
      · exact hstart
      · exact hstaged.unflipped
    · cases hok
      exact ⟨off, cap, rfl, hstaged, hq, rfl⟩
  · have hlinked : Untouched a hosts before slices (linked w a.stack slot p c h) := hun.grant.store.store
    have hreplaced : Untouched a hosts before slices
        (replaced w a.stack slot p c h (some (WalBlock.at off cap).range)) := fun x hx =>
      (hlinked x hx).release (x := (a.stack, (WalBlock.at off cap).range)) fun he =>
        hblock (he ▸ List.mem_map_of_mem hx)
    have hlive : ∀ r, some (WalBlock.at off cap).range = some r → r ∈ (w.files a.stack).live := by
      rintro r ⟨⟩
      exact hat.live
    have hlinkedAt := logAt_linked hat.anchor hat.reserved h
    have hreplacedAt := logAt_replaced (some (WalBlock.at off cap).range) hat.anchor hat.reserved h hlive
    have hapart := fresh_not_listed h hun
    have hstaged := staged_of_image hsafe hreplaced hreplacedAt (hc ▸ hroom) hapart (hc ▸ hcapacity)
    obtain ⟨hg, hi⟩ := hat.initialised (h := h)
    rw [hrun]
    refine ⟨fun t ht => ?_, fun block hok => ?_⟩
    · simp only [Run.states, List.mem_append, List.mem_cons, List.not_mem_nil, or_false] at ht
      rcases ht with (rfl | rfl | rfl | rfl | rfl) | rfl
      · exact hstart
      · exact .inr ⟨_, _, _, _, hun.grant, hg, hblock, hothers⟩
      · exact .inr ⟨_, _, _, _, hun.grant.store, hi, hblock, hothers⟩
      · exact .inr ⟨p, c, _, [], hlinked, hlinkedAt, hapart, fun q hq => by cases hq⟩
      · exact .inr ⟨p, c, _, [], hreplaced, hreplacedAt, hapart, fun q hq => by cases hq⟩
      · exact hstaged.unflipped
    · cases hok
      exact ⟨p, c, rfl, hstaged, hq, rfl⟩

end Frees

/-- Every state in and after a staging owes none of its slices. -/
theorem stageFrees_unflipped (hq : w.Quiet) (hsafe : SafeFrees a hosts slot slices before)
    (hfiles : w.files = before.files) (hhanded : w.handed = before.handed)
    (hready : WalReady a slot (before.files a.stack)) :
    Stages a hosts slot before slices w (stageFrees a slices w) := by
  have hun : Untouched a hosts before slices w := by
    intro p hp
    simp only [CellOk, reduceCtorEq, if_false, hfiles, hhanded]
    exact ⟨hsafe.live p hp, trivial⟩
  cases hready with
  | absent hno => exact persist_absent hsafe hun hq (by rwa [hfiles])
  | block hat hmin =>
      have hblock := hsafe.block _ _ _ _ hat
      rw [List.map_append, List.mem_append, not_or] at hblock
      refine persist_block hsafe hun hq (by rwa [hfiles]) hblock.1 fun q hq => ?_
      rw [← hat.owed_eq] at hq
      exact ⟨hsafe.unowed q hq, fun he => hblock.2 (he ▸ List.mem_map_of_mem hq)⟩

end Staging

/-! ### Crashes of the commit, and of the recoveries after it -/

section Chain

variable {a : Allocator} {hosts : Nat → Allocator} {here : Nat → Bool} {slot off cap : Nat}
  {before w : World} {slices : List (Nat × Range)}

/-- The states a crash of `commitFrees` may leave, on either side of the flip. -/
inductive CommitCrash (a : Allocator) (slices : List (Nat × Range)) (w : World) : Bool → World → Prop
  | start : CommitCrash a slices w false w
  | staging {s : World} (h : s ∈ (stageFrees a slices (w.lock a.stack)).states) :
      CommitCrash a slices w false s
  | flipped (block : WalBlock) {s : World}
      (hok : (stageFrees a slices (w.lock a.stack)).out = .ok block)
      (h : s ∈ (HeldLock.finish a (HeldLock.markComplete a block.range.start
        (stageFrees a slices (w.lock a.stack)).final).final).states) :
      CommitCrash a slices w true s

/-- The state `n` crashed recoveries after `s`. Each opener attaches the files `serves` allows. -/
inductive CrashChain (a : Allocator) (serves : (Nat → Option Allocator) → Prop) (s : World) :
    Nat → World → Prop
  | start : CrashChain a serves s 0 s
  | crash {n : Nat} {t u v : World} (h : CrashChain a serves s n t) (hu : World.Reopened t u)
      (hserves : serves u.attached) (hv : v ∈ (finish a u).cuts) : CrashChain a serves s (n + 1) v

theorem CellOk.congr {w' : World} {it : (Nat × Range) × Cell} (hfiles : w'.files = w.files)
    (hhanded : w'.handed = w.handed) (h : CellOk a hosts before w it) : CellOk a hosts before w' it := by
  simpa only [CellOk, hfiles, hhanded] using h

theorem Rolling.congr {w' : World} {status : WalStatus} {items : List ((Nat × Range) × Cell)}
    (hfiles : w'.files = w.files) (hhanded : w'.handed = w.handed)
    (h : Rolling a hosts slot off cap before status items w) :
    Rolling a hosts slot off cap before status items w' :=
  ⟨by rw [hfiles]; exact h.log, fun it hit => (h.cells it hit).congr hfiles hhanded⟩

theorem Flipped.congr {w' : World} {lost : Nat} (hfiles : w'.files = w.files)
    (hhanded : w'.handed = w.handed) (h : Flipped a hosts here slot off cap before slices lost w) :
    Flipped a hosts here slot off cap before slices lost w' := by
  obtain ⟨items, hs, hl, h | ⟨h, hdone⟩⟩ := h
  · exact ⟨items, hs, hl, .inl (h.congr hfiles hhanded)⟩
  · exact ⟨items, hs, hl, .inr ⟨h.congr hfiles hhanded, hdone⟩⟩

theorem Settled.congr {w' : World} {lost : Nat} {status : WalStatus} (hfiles : w'.files = w.files)
    (hhanded : w'.handed = w.handed) (h : Settled a hosts here slot off cap before slices lost status w) :
    Settled a hosts here slot off cap before slices lost status w' := by
  obtain ⟨items, hs, hl, h, hdone⟩ := h
  exact ⟨items, hs, hl, h.congr hfiles hhanded, hdone⟩

theorem Unflipped.congr {w' : World} (hfiles : w'.files = w.files) (hhanded : w'.handed = w.handed)
    (h : Unflipped a hosts slot before slices w) : Unflipped a hosts slot before slices w' := by
  rcases h with ⟨hun, hno⟩ | ⟨off, cap, status, entries, h⟩
  · exact .inl ⟨fun p hp => (hun p hp).congr hfiles hhanded, by rw [hfiles]; exact hno⟩
  · exact .inr ⟨off, cap, status, entries, fun p hp => (h.untouched p hp).congr hfiles hhanded,
      by rw [hfiles]; exact h.log, h.apart, h.others⟩

theorem Settled.flipped {lost : Nat} (h : Settled a hosts here slot off cap before slices lost .none w) :
    Flipped a hosts here slot off cap before slices lost w := by
  obtain ⟨items, hs, hl, h, hdone⟩ := h
  exact ⟨items, hs, hl, .inr ⟨h, hdone⟩⟩

/-- No slice of a flipped transaction was freed more than once. -/
theorem Flipped.count_le {lost : Nat} (h : Flipped a hosts here slot off cap before slices lost w) :
    ∀ p ∈ slices, w.handed.count (place a hosts p) ≤ before.handed.count (place a hosts p) + 1 := by
  obtain ⟨items, rfl, -, h⟩ := h
  have hcells : ∀ it ∈ items, CellOk a hosts before w it := by
    rcases h with h | ⟨h, -⟩ <;> exact h.cells
  intro p hp
  obtain ⟨it, hit, rfl⟩ := List.mem_map.mp hp
  have hcell := hcells it hit
  unfold CellOk at hcell
  split at hcell <;> omega

def remaining (a : Allocator) (hosts : Nat → Allocator) (here : Nat → Bool)
    (slices : List (Nat × Range)) (w : World) : Nat :=
  slices.countP fun p => reachable here p.1 &&
    decide ((place a hosts p).2 ∈ (w.files (place a hosts p).1).live)

/-- Once settled, what is left allocated of the reachable slices was lost to a crash. -/
theorem Settled.remaining_le {lost : Nat} {status : WalStatus}
    (h : Settled a hosts here slot off cap before slices lost status w) :
    remaining a hosts here slices w ≤ lost := by
  obtain ⟨items, rfl, hlost, h, hdone⟩ := h
  refine Nat.le_trans ?_ hlost
  rw [remaining, lostCount, List.countP_map]
  refine List.countP_mono_left fun it hit hlive => ?_
  simp only [Function.comp_apply, Bool.and_eq_true, decide_eq_true_eq] at hlive ⊢
  refine ⟨hlive.1, ?_⟩
  have hcell := h.cells it hit
  have hne := hdone it hit
  unfold CellOk at hcell
  cases hc : it.2 with
  | owed => exact absurd hc hne
  | lost => rfl
  | freed =>
      rw [if_pos hc] at hcell
      exact absurd hlive.2 hcell.1

/-- The flip: from here on every slice is owed. -/
theorem Staged.flip (here : Nat → Bool) (h : Staged a hosts slot off cap before slices w) (hq : w.Quiet) :
    HeldLock.markComplete a off w = ⟨.ok (), w.store a.stack (off + WAL_STATUS_OFFSET)
        [WalStatus.complete.toU8], [w]⟩ ∧
      Flipped a hosts here slot off cap before slices 0
        (w.store a.stack (off + WAL_STATUS_OFFSET) [WalStatus.complete.toU8]) := by
  have hstop := h.log.stop_le
  refine ⟨set_run _ _ _ hq ?_, slices.map fun p => (p, .owed), ?_, ?_, .inl ⟨?_, ?_⟩⟩
  · simp only [List.length_singleton, WAL_STATUS_OFFSET, WAL_HEADER_SIZE] at *
    omega
  · simp [List.map_map, Function.comp_def]
  · rw [lostCount, List.countP_map]
    exact Nat.le_of_eq (List.countP_eq_zero.mpr fun p _ => by simp)
  · rw [freeEntries_eq, World.files_store_same]
    exact h.log.set_status _
  · intro it hit
    obtain ⟨p, hp, rfl⟩ := List.mem_map.mp hit
    exact (h.untouched p hp).store ..

theorem finish_states {t u : World} (hu : World.Reopened t u) :
    (∀ v ∈ (finish a u).cuts, v ∈ (HeldLock.finish a (u.lock a.stack)).cuts) ∧
      (finish a u).out = (HeldLock.finish a (u.lock a.stack)).out ∧
      (finish a u).final.files = (HeldLock.finish a (u.lock a.stack)).final.files ∧
      (finish a u).final.handed = (HeldLock.finish a (u.lock a.stack)).final.handed := by
  rw [finish_reopened hu]
  exact ⟨fun _ h => h, rfl, rfl, rfl⟩

/-- Recovery of a flipped transaction, whatever its size. -/
theorem finish_flipped {t u : World} (hseq : a.atomicBulk = false)
    (hlisted : Listed a hosts off cap slices) {lost : Nat}
    (ht : Flipped a hosts here slot off cap before slices lost t) (hu : World.Reopened t u)
    (hserves : Serves hosts here u.attached) :
    (∀ v ∈ (finish a u).cuts, Flipped a hosts here slot off cap before slices (lost + 1) v) ∧
      Flipped a hosts here slot off cap before slices lost (finish a u).final ∧
      (cap ≤ WAL_MAX_CAP → ∃ n, (finish a u).out = .ok n ∧
        Settled a hosts here slot off cap before slices lost .none (finish a u).final) := by
  obtain ⟨hcuts, hout, hfiles, hhanded⟩ := finish_states (a := a) hu
  have hstart : Flipped a hosts here slot off cap before slices lost (u.lock a.stack) :=
    ht.congr hu.files hu.handed
  by_cases hcap : cap ≤ WAL_MAX_CAP
  · obtain ⟨hok, herr, hcut⟩ := heldFinish_flipped hseq hlisted hcap lost (u.lock a.stack)
      ⟨⟨hu.quiet, hserves⟩, hstart⟩
    cases hres : (HeldLock.finish a (u.lock a.stack)).out with
    | error e => exact absurd (herr e hres) id
    | ok n =>
        have hsettled := (hok n hres).congr hfiles hhanded
        exact ⟨fun v hv => hcut v (hcuts v hv), hsettled.flipped,
          fun _ => ⟨n, hout.trans hres, hsettled⟩⟩
  · obtain ⟨cap', status, entries, hat, rfl⟩ : ∃ cap' status entries,
        LogAt a slot off status cap' entries (u.files a.stack) ∧ cap' = cap := by
      obtain ⟨items, -, -, h | ⟨h, -⟩⟩ := hstart
      · exact ⟨cap, _, _, h.log, rfl⟩
      · exact ⟨cap, _, _, h.log, rfl⟩
    have hrun := heldFinish_oversized (w := u.lock a.stack) hu.quiet hat (Nat.not_le.mp hcap)
    rw [hrun] at hcuts hfiles hhanded
    refine ⟨fun v hv => absurd (hcuts v hv) List.not_mem_nil, hstart.congr hfiles hhanded,
      fun h => absurd h hcap⟩

theorem finish_unflipped {t u : World} (hseq : a.atomicBulk = false)
    (ht : Unflipped a hosts slot before slices t) (hu : World.Reopened t u)
    (hserves : Serves hosts here u.attached) :
    ∀ v ∈ (finish a u).states, Unflipped a hosts slot before slices v := by
  obtain ⟨hcuts, hout, hfiles, hhanded⟩ := finish_states (a := a) hu
  have hstart : Unflipped a hosts slot before slices (u.lock a.stack) := ht.congr hu.files hu.handed
  obtain ⟨hok, herr, hcut⟩ := heldFinish_unflipped hseq (u.lock a.stack) ⟨⟨hu.quiet, hserves⟩, hstart⟩
  intro v hv
  rcases List.mem_append.mp hv with hv | hv
  · exact hcut v (hcuts v hv)
  · rw [List.mem_singleton.mp hv]
    cases hres : (HeldLock.finish a (u.lock a.stack)).out with
    | ok n => exact (hok n hres).congr hfiles hhanded
    | error e => exact (herr e hres).congr hfiles hhanded

/-- The run lemma of nested crashes, flipped. -/
theorem CrashChain.flipped (hseq : a.atomicBulk = false) (hlisted : Listed a hosts off cap slices)
    {s t : World} {n lost : Nat} (hs : Flipped a hosts here slot off cap before slices lost s)
    (h : CrashChain a (Serves hosts here) s n t) :
    Flipped a hosts here slot off cap before slices (lost + n) t := by
  induction h with
  | start => exact hs
  | crash _ hu hserves hv ih => exact (finish_flipped hseq hlisted ih hu hserves).1 _ hv

/-- The run lemma of nested crashes, not flipped. -/
theorem CrashChain.unflipped (hseq : a.atomicBulk = false) {s t : World} {n : Nat}
    (hs : Unflipped a hosts slot before slices s) (h : CrashChain a (Serves hosts here) s n t) :
    Unflipped a hosts slot before slices t := by
  induction h with
  | start => exact hs
  | crash _ hu hserves hv ih =>
      exact finish_unflipped hseq ih hu hserves _ (List.mem_append_left _ hv)

/-- Every crash point of the commit is on one side of the flip. -/
theorem commitFrees_crashes (hseq : a.atomicBulk = false) :
    ∀ t ∈ (commitFrees a slices w).states, ∃ b s, CommitCrash a slices w b s ∧
      World.Alike s t := by
  intro t ht
  rw [commitFrees] at ht
  by_cases hnil : slices = []
  · rw [if_pos hnil] at ht
    rcases List.mem_append.mp ht with ht | ht
    · cases ht
    · rw [List.mem_singleton.mp ht]
      exact ⟨false, w, .start, rfl, rfl, rfl⟩
  rw [if_neg hnil, hseq, if_neg (by simp)] at ht
  by_cases hheld : a.stack ∈ w.held
  · have hacq : HeldLock.acquire a w = ⟨.error reentered, w, []⟩ := by
      simp only [HeldLock.acquire, Prog.volatile_apply, if_pos hheld]
    rw [withLock, Prog.bind_of_error hacq] at ht
    rcases List.mem_append.mp ht with ht | ht
    · cases ht
    · rw [List.mem_singleton.mp ht]
      exact ⟨false, w, .start, rfl, rfl, rfl⟩
  rw [withLock_run hheld] at ht
  -- the crash points of the body, and its last state with the lock given back
  have hbody : ∃ v ∈ (((stageFrees a slices >>= fun block => commitStaged a block) :
      Io Unit) (w.lock a.stack)).states, World.Alike v t := by
    rcases List.mem_append.mp ht with ht | ht
    · exact ⟨t, List.mem_append_left _ ht, rfl, rfl, rfl⟩
    · rw [List.mem_singleton.mp ht]
      exact ⟨_, List.mem_append_right _ (List.mem_singleton_self _), rfl, rfl, rfl⟩
  obtain ⟨v, hv, hsame⟩ := hbody
  cases hstage : stageFrees a slices (w.lock a.stack) with
  | mk out st cs =>
    have hstates : ∀ x ∈ cs ++ [st], CommitCrash a slices w false x := fun x hx =>
      .staging (by rw [hstage]; exact hx)
    cases out with
    | error e =>
        rw [Prog.bind_of_error hstage] at hv
        exact ⟨false, v, hstates v hv, hsame⟩
    | ok block =>
        rw [Prog.bind_of_ok hstage] at hv
        rw [commitStaged] at hv
        rcases set_cases a.stack (block.range.start + WAL_STATUS_OFFSET) [WalStatus.complete.toU8] st with
          ⟨e, st', hmark, hback⟩ | hmark
        · rw [HeldLock.markComplete, Prog.bind_of_error hmark] at hv
          simp only [Run.states, Run.after, List.mem_append, List.mem_singleton] at hv
          rcases hv with (hv | rfl) | rfl
          · exact ⟨false, v, hstates v (by simp [hv]), hsame⟩
          · exact ⟨false, v, hstates v (by simp), hsame⟩
          · exact ⟨false, st, hstates st (by simp), hback.trans hsame⟩
        · rw [HeldLock.markComplete, Prog.bind_of_ok hmark] at hv
          have hflip : ∀ x ∈ (HeldLock.finish a (st.tick.store a.stack
              (block.range.start + WAL_STATUS_OFFSET) [WalStatus.complete.toU8])).states,
              CommitCrash a slices w true x := by
            intro x hx
            refine .flipped block (by rw [hstage]) ?_
            rw [hstage, HeldLock.markComplete, hmark]
            exact hx
          generalize st.tick.store a.stack (block.range.start + WAL_STATUS_OFFSET)
            [WalStatus.complete.toU8] = st' at hv hflip
          have hlast : v ∈ cs ++ [st] ∨ v ∈ (HeldLock.finish a st').states := by
            cases hfin : HeldLock.finish a st' with
            | mk out' st'' cs'' =>
              cases out' with
              | ok n =>
                  rw [Prog.bind_of_ok hfin] at hv
                  simp only [Run.states, Run.after, Prog.pure_apply, List.mem_append,
                    List.mem_singleton, List.append_nil] at hv ⊢
                  tauto
              | error e =>
                  rw [Prog.bind_of_error hfin] at hv
                  simp only [Run.states, Run.after, List.mem_append, List.mem_singleton] at hv ⊢
                  tauto
          rcases hlast with hv | hv
          · exact ⟨false, v, hstates v hv, hsame⟩
          · exact ⟨true, v, hflip v hv, hsame⟩

/-- A batch of frees on a sequential allocator is crash-atomic. Whatever recoveries crash after the
commit crashed, no listed slice is handed to an allocator twice; flipped, the recovery that completes
leaves at most one reachable slice allocated for each crash; not flipped, none is ever handed over. -/
theorem commitFrees_crash_atomic (hq : w.Quiet) (hseq : a.atomicBulk = false)
    (hready : WalReady a slot (w.files a.stack)) (hserves : Serves hosts here w.attached)
    (hsafe : SafeFrees a hosts slot slices w) :
    (∀ t ∈ (commitFrees a slices w).states, ∃ b s, CommitCrash a slices w b s ∧
      World.Alike s t) ∧
    ∀ b s n t u, CommitCrash a slices w b s → CrashChain a (Serves hosts here) s n t →
      World.Reopened t u → Serves hosts here u.attached →
      (∀ v ∈ (finish a u).states, ∀ p ∈ slices,
        v.handed.count (place a hosts p) ≤ w.handed.count (place a hosts p) + 1) ∧
      (b = true → slices.length ≤ WAL_MAX_CAP → ∃ m, (finish a u).out = .ok m ∧
        remaining a hosts here slices (finish a u).final ≤ n + 1) ∧
      (b = false → ∀ v ∈ (finish a u).states, ∀ p ∈ slices,
        (place a hosts p).2 ∈ (v.files (place a hosts p).1).live ∧
          v.handed.count (place a hosts p) = w.handed.count (place a hosts p)) := by
  refine ⟨commitFrees_crashes hseq, fun b s n t u hcrash hchain hu hserves' => ?_⟩
  obtain ⟨hstates, hstaged⟩ := stageFrees_unflipped (w := w.lock a.stack) hq hsafe rfl rfl hready
  have hbefore : ∀ {s}, Unflipped a hosts slot w slices s → CrashChain a (Serves hosts here) s n t →
      ∀ v ∈ (finish a u).states, ∀ p ∈ slices,
        (place a hosts p).2 ∈ (v.files (place a hosts p).1).live ∧
          v.handed.count (place a hosts p) = w.handed.count (place a hosts p) := by
    intro s hs hchain v hv p hp
    have hcell := (finish_unflipped hseq (hchain.unflipped hseq hs) hu hserves' v hv).untouched p hp
    simpa only [CellOk, reduceCtorEq, if_false] using hcell
  have hstart : Unflipped a hosts slot w slices w := by
    have hun : Untouched a hosts w slices w := by
      intro p hp
      simp only [CellOk, reduceCtorEq, if_false]
      exact ⟨hsafe.live p hp, trivial⟩
    cases hready with
    | absent hno => exact .inl ⟨hun, hno⟩
    | block hat hmin =>
        have hblock := hsafe.block _ _ _ _ hat
        rw [List.map_append, List.mem_append, not_or] at hblock
        refine .inr ⟨_, _, _, _, hun, hat, hblock.1, fun q hq => ?_⟩
        rw [← hat.owed_eq] at hq
        exact ⟨hsafe.unowed q hq, fun he => hblock.2 (he ▸ List.mem_map_of_mem hq)⟩
  cases hcrash with
  | start =>
      have hfree := hbefore hstart hchain
      exact ⟨fun v hv p hp => by have := (hfree v hv p hp).2; omega, fun h => (by cases h),
        fun _ => hfree⟩
  | staging hs =>
      have hfree := hbefore (hstates s hs) hchain
      exact ⟨fun v hv p hp => by have := (hfree v hv p hp).2; omega, fun h => (by cases h),
        fun _ => hfree⟩
  | flipped block hok hs =>
      obtain ⟨off, cap, rfl, hst, hq', hatt⟩ := hstaged _ hok
      obtain ⟨hmark, hflip⟩ := hst.flip here hq'
      have hlisted : Listed a hosts off cap slices := ⟨hsafe.nodup, hst.apart⟩
      rw [WalBlock.at_start, hmark] at hs
      have hserving : Serving hosts here ((stageFrees a slices (w.lock a.stack)).final.store a.stack
          (off + WAL_STATUS_OFFSET) [WalStatus.complete.toU8]) := by
        refine ⟨hq', ?_⟩
        rw [World.attached_store, hatt]
        exact hserves
      have hcrashed : Flipped a hosts here slot off cap w slices 1 s := by
        by_cases hcap : cap ≤ WAL_MAX_CAP
        · obtain ⟨hfok, hferr, hfcut⟩ := heldFinish_flipped hseq hlisted hcap 0 _ ⟨hserving, hflip⟩
          rcases List.mem_append.mp hs with hs | hs
          · exact hfcut s hs
          · rw [List.mem_singleton.mp hs]
            cases hres : (HeldLock.finish a ((stageFrees a slices (w.lock a.stack)).final.store a.stack
              (off + WAL_STATUS_OFFSET) [WalStatus.complete.toU8])).out with
            | error e => exact absurd (hferr e hres) id
            | ok m =>
                obtain ⟨items, h1, h2, h3, h4⟩ := hfok m hres
                exact ⟨items, h1, Nat.le_succ_of_le h2, .inr ⟨h3, h4⟩⟩
        · obtain ⟨items, h1, h2, h3⟩ := hflip
          obtain ⟨status, entries, hat⟩ : ∃ status entries, LogAt a slot off status cap entries
              (((stageFrees a slices (w.lock a.stack)).final.store a.stack
                (off + WAL_STATUS_OFFSET) [WalStatus.complete.toU8]).files a.stack) := by
            rcases h3 with h3 | ⟨h3, -⟩
            · exact ⟨_, _, h3.log⟩
            · exact ⟨_, _, h3.log⟩
          rw [heldFinish_oversized hserving.1 hat (Nat.not_le.mp hcap)] at hs
          rcases List.mem_append.mp hs with hs | hs
          · cases hs
          · rw [List.mem_singleton.mp hs]
            exact ⟨items, h1, Nat.le_succ_of_le h2, h3⟩
      obtain ⟨hcuts, hfinal, hdone⟩ :=
        finish_flipped hseq hlisted (hchain.flipped hseq hlisted hcrashed) hu hserves'
      refine ⟨fun v hv => ?_, fun _ hlen => ?_, fun h => (by cases h)⟩
      · rcases List.mem_append.mp hv with hv | hv
        · exact (hcuts v hv).count_le
        · rw [List.mem_singleton.mp hv]
          exact hfinal.count_le
      · obtain ⟨m, hm, hsettled⟩ := hdone (hst.capacity hlen)
        exact ⟨m, hm, by have := hsettled.remaining_le; omega⟩

theorem safeFrees_noLog (hno : NoLog a slot (w.files a.stack)) (hids : ∀ p ∈ slices, p.1 < 2 ^ 32)
    (hlive : ∀ p ∈ slices, (place a hosts p).2 ∈ (w.files (place a hosts p).1).live)
    (hnodup : (slices.map (place a hosts)).Nodup) : SafeFrees a hosts slot slices w := by
  refine ⟨hids, hlive, hnodup, fun q hq => ?_, fun off cap status entries hat => ?_⟩
  · rw [hno.owed_eq] at hq
    cases hq
  · have hge := hat.off_ge
    have hnull := hat.points.symm.trans hno.null
    omega

end Chain

def oneBlock : World := (World.blank [0, 2000]).grant 0 ⟨100, 8⟩ (by decide)

/-- A crash right after the flip, and the recovery that follows it. -/
theorem commitFrees_crash_atomic_one : ∃ s u m,
    CommitCrash (firstFit 0) [(0, ⟨100, 8⟩)] oneBlock true s ∧ World.Reopened s u ∧
      (finish (firstFit 0) u).out = .ok m ∧
      remaining (firstFit 0) (fun _ => firstFit 1) (fun _ => false) [(0, ⟨100, 8⟩)]
        (finish (firstFit 0) u).final ≤ 1 := by
  have hno : NoLog (firstFit 0) STD_WAL_ANCHOR (oneBlock.files (firstFit 0).stack) := by
    rw [oneBlock, show (firstFit 0).stack = 0 from rfl, World.files_grant_same]
    exact (noLog_blank 0 _ _ _ rfl (by decide)).allocAt _
  have hok : (stageFrees (firstFit 0) [(0, ⟨100, 8⟩)] (oneBlock.lock 0)).out =
      .ok (WalBlock.at 2000 8) := by
    decide +kernel
  have hflip := CommitCrash.flipped _ hok (List.mem_append_right _ (List.mem_singleton_self _))
  have hopen := World.reopened_restart
    (commitStaged (firstFit 0) (WalBlock.at 2000 8)
      (stageFrees (firstFit 0) [(0, ⟨100, 8⟩)] (oneBlock.lock 0)).final).final (fun _ => none) []
  have hserves : Serves (fun _ => firstFit 1) (fun _ => false) (fun _ => none) :=
    ⟨fun _ => .inl rfl, fun _ h => (by cases h)⟩
  obtain ⟨-, hdone, -⟩ := (commitFrees_crash_atomic (a := firstFit 0) (w := oneBlock) rfl rfl
    (WalReady.absent hno) hserves
    (safeFrees_noLog hno (by decide) (by decide) (by decide))).2 true _ 0 _ _ hflip .start hopen
      hserves
  obtain ⟨m, hm, hle⟩ := hdone rfl (by decide)
  exact ⟨_, _, m, hflip, hopen, hm, hle⟩

def detachedBlocks : List (Nat × Range) := [(1, ⟨100, 8⟩), (1, ⟨200, 8⟩)]

def detachedWorld : World :=
  ((World.blank [0, 0, 2000]).grant 1 ⟨100, 8⟩ (by decide)).grant 1 ⟨200, 8⟩ (by decide)

/-- One crash, and two slices of a committed batch stay allocated for good: their file is detached. -/
theorem detached_slices_leak : ∃ s u, CommitCrash (firstFit 0) detachedBlocks detachedWorld true s ∧
    World.Reopened s u ∧ (finish (firstFit 0) u).out = .ok 0 ∧
    ∀ p ∈ detachedBlocks, p.2 ∈ ((finish (firstFit 0) u).final.files 1).live := by
  have hok : (stageFrees (firstFit 0) detachedBlocks (detachedWorld.lock 0)).out =
      .ok (WalBlock.at 2000 8) := by
    decide +kernel
  refine ⟨_, _, .flipped _ hok (List.mem_append_right _ (List.mem_singleton_self _)),
    World.reopened_restart _ (fun _ => none) [], ?_⟩
  decide +kernel

end BStackRaii
