import BStackRaii.Proof.Effects
import BStackRaii.Proof.Wal.Commit
import BStackRaii.Proof.Wal.Takeover
/-!
# Staging over an unfinished transaction

Neither a clone's begin nor a batch of frees looks at the status of the log before it stages. Once the log is taken
over, what an unfinished transaction owed is neither freed nor owed, unless the new log lists it again. So the next
operation keeps what is owed exactly where it does not get as far as that write.
-/

namespace BStackRaii

variable {a : Allocator} {hosts : Nat → Allocator} {slot off cap : Nat} {status : UInt8}
  {entries log : List WalEntry} {w v : World}

/-! ### What is accounted for -/

/-- A slice is accounted for: reclaimed, or still owed by the log. -/
def Kept (a : Allocator) (hosts : Nat → Allocator) (slot : Nat) (v : World) (q : Nat × Range) : Prop :=
  (place a hosts q).2 ∉ (v.files (place a hosts q).1).live ∨
    place a hosts q ∈ (owed (v.files a.stack) slot).map (place a hosts)

/-- Every slice the log of `w` owed is accounted for in `v`. -/
def KeepsOwed (a : Allocator) (hosts : Nat → Allocator) (slot : Nat) (w v : World) : Prop :=
  ∀ q ∈ owed (w.files a.stack) slot, Kept a hosts slot v q

/-- The log of a file records an unfinished transaction: it owes live blocks. -/
structure Unfinished (a : Allocator) (hosts : Nat → Allocator) (slot off cap : Nat) (status : UInt8)
    (entries : List WalEntry) (w : World) : Prop where
  log : LogAt a slot off status cap entries (w.files a.stack)
  owes : owedBy (WalStatus.fromU8 status) entries ≠ []
  live : ∀ q ∈ owedBy (WalStatus.fromU8 status) entries,
    (place a hosts q).2 ∈ (w.files (place a hosts q).1).live

/-- The new log `log` lists again whatever the log of `w` owes. -/
def Relists (a : Allocator) (hosts : Nat → Allocator) (slot : Nat) (w : World) (listed : List (Nat × Range)) : Prop :=
  ∀ q ∈ owed (w.files a.stack) slot, place a hosts q ∈ listed.map (place a hosts)

instance (a : Allocator) (hosts : Nat → Allocator) (slot : Nat) (w : World) (listed : List (Nat × Range)) :
    Decidable (Relists a hosts slot w listed) := inferInstanceAs (Decidable (∀ q ∈ _, _))

theorem keepsOwed_of_relists (h : Relists a hosts slot w (owed (v.files a.stack) slot)) : KeepsOwed a hosts slot w v :=
  fun q hq => .inr (h q hq)

/-- Nothing changes while the old log is in place. -/
theorem LogAt.keepsOwed (hat : LogAt a slot off status cap entries (w.files a.stack))
    (hv : LogAt a slot off status cap entries (v.files a.stack)) : KeepsOwed a hosts slot w v := by
  refine keepsOwed_of_relists fun q hq => ?_
  rw [hv.owed_eq, ← hat.owed_eq]
  exact List.mem_map_of_mem hq

section Forgets

variable (h : Unfinished a hosts slot off cap status entries w)
include h

/-- A state that has lost no block keeps what its own log owes again. -/
theorem Unfinished.keeps_iff (hlive : ∀ k, ∀ r ∈ (w.files k).live, r ∈ (v.files k).live) :
    KeepsOwed a hosts slot w v ↔ Relists a hosts slot w (owed (v.files a.stack) slot) := by
  refine ⟨fun hkeeps q hq => ?_, keepsOwed_of_relists⟩
  cases hkeeps q hq with
  | inl hgone => exact absurd (hlive _ _ (h.live q (h.log.owed_eq ▸ hq))) hgone
  | inr hlisted => exact hlisted

theorem Unfinished.not_relists_nil : ¬ Relists a hosts slot w [] := by
  intro hrelists
  obtain ⟨q, hq⟩ := List.exists_mem_of_ne_nil _ h.owes
  exact absurd (hrelists q (h.log.owed_eq.symm ▸ hq)) List.not_mem_nil

/-- The link to an empty block forgets everything. -/
theorem Unfinished.linked_forgets {p c : Nat} {hadm : (w.files a.stack).Admits (WalBlock.at p c).range}
    (hv : v.files = (linked w a.stack slot p c hadm).files) : ¬ KeepsOwed a hosts slot w v := by
  have hlive : ∀ k, ∀ r ∈ (w.files k).live, r ∈ (v.files k).live := by
    intro k r hr
    rw [hv, linked, World.live_store, initialised, World.live_store]
    exact World.mem_live_grant hr
  rw [h.keeps_iff hlive, hv, (logAt_linked h.log.anchor h.log.reserved hadm).owed_eq]
  exact h.not_relists_nil

/-- A staging of `log` keeps what was owed exactly where it fails in time, or lists it again in place. -/
theorem Unfinished.persist_keeps_iff (hfit : ∀ e ∈ log, e.Fits) :
    (∀ t ∈ (HeldLock.persist a log .pending w).states, KeepsOwed a hosts slot w t) ↔
      ¬ TakesOver a cap log.length w ∨ log.length ≤ cap ∧ Relists a hosts slot w (owedBy .pending log) := by
  rcases persist_outcome h.log log .pending with ⟨htakes, hle, hrun⟩ | ⟨htakes, hlt, p, c, hadm, t, ht, hfiles⟩ |
    ⟨hno, e, w', cs, hrun, hstill⟩
  · have himage : LogAt a slot off WalStatus.pending.toU8 cap log
        (((w.skip 3).store a.stack off (blockImage log .pending cap)).files a.stack) := by
      rw [World.files_store_same]
      exact h.log.image .pending hfit hle
    have hkeeps := h.keeps_iff (v := (w.skip 3).store a.stack off (blockImage log .pending cap)) fun k r hr => by
      rw [World.live_store]
      exact hr
    rw [himage.owed_eq, WalStatus.fromU8_toU8] at hkeeps
    have hbefore : KeepsOwed a hosts slot w (w.skip 2) := h.log.keepsOwed h.log
    rw [hrun, Run.states, List.forall_mem_append, List.forall_mem_singleton, List.forall_mem_singleton, hkeeps]
    exact ⟨fun hall => .inr ⟨hle, hall.2⟩, fun hcond => ⟨hbefore, (hcond.resolve_left (not_not_intro htakes)).2⟩⟩
  · refine iff_of_false (fun hall => ?_) ?_
    · exact h.linked_forgets hfiles (hall t (List.mem_append_left _ ht))
    · exact not_or.mpr ⟨not_not_intro htakes, fun hcond => absurd hcond.1 (Nat.not_le.mpr hlt)⟩
  · refine iff_of_true (fun t ht => ?_) (.inl hno)
    rw [hrun] at ht
    exact h.log.keepsOwed (hstill t ht)

end Forgets

/-! ### The next operation -/

/-- The operations that stage entries: a clone's begin, the next entry of a clone in flight, a batch of frees. -/
inductive Staging
  | beginMany (rs : List Range)
  | append (t : WalTxn) (logged : List Range) (r : Range)
  | commit (slices : List (Nat × Range))
deriving DecidableEq

namespace Staging

/-- Every state a crash in the middle of the operation may leave, and the last one. -/
def states (a : Allocator) (w : World) : Staging → List World
  | beginMany rs => (WalTxn.beginMany a rs w).states
  | append t logged r => (t.append a logged r w).states
  | commit slices => (commitFrees a slices w).states

/-- The words of the new entries are those of `u64` fields, and an append goes on with the log it began. -/
def Legal (off cap : Nat) (status : UInt8) (entries : List WalEntry) : Staging → Prop
  | beginMany rs => ∀ e ∈ allocEntries rs, e.Fits
  | append t logged r => (∀ e ∈ allocEntries (logged ++ [r]), e.Fits) ∧ t = ⟨off, cap, logged.length⟩ ∧
      status = WalStatus.pending.toU8 ∧ entries = allocEntries logged
  | commit slices => ∀ e ∈ freeEntries slices, e.Fits

/-- The operation does not get as far as the write that takes over the log, or its new entries list again what is
owed. A batch of frees is staged as pending, and so owes nothing when it takes over. -/
def Spares (a : Allocator) (hosts : Nat → Allocator) (slot cap : Nat) (w : World) : Staging → Prop
  | beginMany rs => a.stack ∈ w.held ∨ ¬ TakesOver a cap rs.length w ∨
      rs.length ≤ cap ∧ Relists a hosts slot w (rs.map fun r => (FileId.SELF, r))
  | append t logged _ => t.logged < t.capacity ∨ ¬ TakesOver a cap (logged.length + 1) w
  | commit slices => slices = [] ∨ (a.atomicBulk ∧ ∀ p ∈ slices, p.1 = FileId.SELF) ∨ a.stack ∈ w.held ∨
      ¬ TakesOver a cap slices.length w

end Staging

section Lock

variable {α : Type} (hosts) (slot)

theorem withLock_held (hheld : a.stack ∈ w.held) (c : Io α) : withLock a c w = ⟨.error reentered, w, []⟩ := by
  have hacq : HeldLock.acquire a w = ⟨.error reentered, w, []⟩ := by
    simp only [HeldLock.acquire, Prog.volatile_apply, if_pos hheld]
  rw [withLock, Prog.bind_of_error hacq]

theorem withLock_keeps (hfree : a.stack ∉ w.held) (c : Io α) :
    (∀ t ∈ (withLock a c w).states, KeepsOwed a hosts slot w t) ↔
      ∀ t ∈ (c (w.lock a.stack)).states, KeepsOwed a hosts slot w t := by
  rw [withLock_run hfree, Run.states, Run.states, List.forall_mem_append, List.forall_mem_append,
    List.forall_mem_singleton, List.forall_mem_singleton]
  exact Iff.rfl

theorem beginMany_keeps (hfree : a.stack ∉ w.held) (rs : List Range) :
    (∀ t ∈ (WalTxn.beginMany a rs w).states, KeepsOwed a hosts slot w t) ↔
      ∀ t ∈ (HeldLock.persist a (allocEntries rs) .pending (w.lock a.stack)).states, KeepsOwed a hosts slot w t := by
  have hacq : HeldLock.acquire a w = ⟨.ok (), w.lock a.stack, []⟩ := by
    simp only [HeldLock.acquire, Prog.volatile_apply, if_neg hfree]
  rw [WalTxn.beginMany, Prog.bind_of_ok hacq, Prog.bind_of_ok (Prog.attempt_apply ..), ← allocEntries]
  cases HeldLock.persist a (allocEntries rs) .pending (w.lock a.stack) with
  | mk out w' cs =>
      cases out with
      | ok b => simp only [Prog.pure_apply, Run.after_mk, Run.states, List.nil_append, List.append_nil]
      | error e =>
          have hdrop : HeldLock.drop a w' = ⟨.ok (), w'.unlock a.stack, []⟩ := rfl
          simp only [Prog.bind_of_ok hdrop, Prog.fail_apply, Run.after_mk, Run.states, List.nil_append, List.append_nil,
            List.forall_mem_append, List.forall_mem_singleton]
          exact Iff.rfl

end Lock

theorem freeAll_bytes {rs : List Range} : ∀ {w w' : World}, freeAll a rs w = some w' →
    ∀ k, (w'.files k).bytes = (w.files k).bytes := by
  induction rs with
  | nil =>
      intro w w' hrun k
      cases hrun
      rfl
  | cons r rs ih =>
      intro w w' hrun k
      rw [freeAll] at hrun
      split at hrun
      · rw [ih hrun k]
        by_cases hk : k = a.stack
        · subst hk
          rw [World.files_release_same, File.bytes_free]
        · rw [World.files_release_ne hk]
      · cases hrun

theorem owed_congr {f f' : File} (h : f'.bytes = f.bytes) : owed f' slot = owed f slot := by
  rw [owed, owed, h]

theorem bulkFreeMany_keeps (rs : List Range) : ∀ t ∈ (bulkFreeMany a rs w).states, KeepsOwed a hosts slot w t := by
  have hsame : ∀ t : World, (∀ k, (t.files k).bytes = (w.files k).bytes) → KeepsOwed a hosts slot w t :=
    fun t ht => keepsOwed_of_relists fun q hq => by
      rw [owed_congr (ht a.stack)]
      exact List.mem_map_of_mem hq
  have hspec : Prog.Spec (· = w) (bulkFreeMany a rs) (fun _ => KeepsOwed a hosts slot w)
      (fun _ => KeepsOwed a hosts slot w) (KeepsOwed a hosts slot w) := by
    apply Prog.Spec.durable
    · rintro v _ t rfl ht
      split at ht
      · cases ht
      · split at ht
        · rename_i hrun
          cases ht
          exact hsame t fun k => (freeAll_bytes hrun k).trans rfl
        · cases ht
    · rintro v _ t rfl ht
      split at ht
      · cases ht
        exact hsame _ fun _ => rfl
      · split at ht
        · cases ht
        · cases ht
          exact hsame _ fun _ => rfl
    · rintro v rfl
      exact hsame _ fun _ => rfl
  exact fun t ht => hspec.states rfl ht

section Append

variable {logged : List Range} {r : Range} (hat : LogAt a slot off WalStatus.pending.toU8 cap (allocEntries logged)
  (w.files a.stack)) (hfit : ∀ e ∈ allocEntries (logged ++ [r]), e.Fits)
include hat hfit

theorem append_keeps (hroom : logged.length < cap) :
    ∀ t ∈ (WalTxn.append a ⟨off, cap, logged.length⟩ logged r w).states, KeepsOwed a hosts slot w t := by
  have hlen : (allocEntries logged).length = logged.length := length_allocEntries logged
  have hr : (WalEntry.alloc .pending r).Fits :=
    hfit _ (List.mem_map_of_mem (List.mem_append_right _ (List.mem_singleton_self r)))
  have hspare := hat.write_spare (.alloc .pending r)
  have hpublished := hat.publish hr (hlen.symm ▸ hroom)
  rw [hlen] at hspare hpublished
  have hkeeps : ∀ t : World, LogAt a slot off WalStatus.pending.toU8 cap (allocEntries logged) (t.files a.stack) →
      KeepsOwed a hosts slot w t := fun t ht => hat.keepsOwed ht
  have hlast : ∀ t : World, LogAt a slot off WalStatus.pending.toU8 cap (allocEntries logged ++ [.alloc .pending r])
      (t.files a.stack) → KeepsOwed a hosts slot w t := by
    intro t ht
    have hall : allocEntries logged ++ [.alloc .pending r] = allocEntries (logged ++ [r]) := by
      simp [allocEntries]
    rw [hall] at ht
    refine keepsOwed_of_relists fun q hq => ?_
    rw [hat.owed_eq, owedBy_allocEntries] at hq
    rw [ht.owed_eq, owedBy_allocEntries, List.map_append, List.map_append]
    exact List.mem_append_left _ (List.mem_map_of_mem hq)
  have hstop := hat.stop_le
  have hslot : logged.length * WAL_ENTRY_SIZE + WAL_ENTRY_SIZE ≤ cap * WAL_ENTRY_SIZE := by
    rw [← Nat.succ_mul]
    exact Nat.mul_le_mul_right _ hroom
  have hspec : Prog.Spec (fun v => v.files a.stack = w.files a.stack)
      (WalTxn.append a ⟨off, cap, logged.length⟩ logged r) (fun _ => KeepsOwed a hosts slot w)
      (fun _ => KeepsOwed a hosts slot w) (KeepsOwed a hosts slot w) := by
    simp only [WalTxn.append, if_pos hroom, HeldLock.appendAlloc]
    refine Prog.Spec.bind (Q := fun _ => KeepsOwed a hosts slot w) ?_ fun _ => Prog.Spec.pure fun _ hv => hv
    refine Prog.Spec.bind (Q := fun _ v => v.files a.stack = (w.files a.stack).write
      (off + WAL_HEADER_SIZE + logged.length * WAL_ENTRY_SIZE) (WalEntry.alloc .pending r).encode) ?_ fun _ => ?_
    · refine set_rule (fun v hv => ?_) (fun v hv => ?_) (fun v hv _ => ?_) fun v hv => ?_
      · rw [hv, WalEntry.length_encode]
        omega
      · rw [World.files_store_same, World.files_tick, hv]
      · exact hkeeps _ (by rw [World.files_tick, hv]; exact hat)
      · exact hkeeps _ (hv ▸ hat)
    · refine set_rule (fun v hv => ?_) (fun v hv => ?_) (fun v hv _ => ?_) fun v hv => ?_
      · rw [hv, File.len_write, length_leBytes]
        simp only [WAL_COUNT_OFFSET, WAL_HEADER_SIZE] at *
        omega
      · exact hlast _ (by rw [World.files_store_same, World.files_tick, hv]; exact hpublished)
      · exact hkeeps _ (by rw [World.files_tick, hv]; exact hspare)
      · exact hkeeps _ (hv ▸ hspare)
  exact fun t ht => hspec.states rfl ht

end Append

/-- The staging of a batch of frees, and what comes behind it. -/
theorem commitStaged_keeps_iff (h : Unfinished a hosts slot off cap status entries w) {slices : List (Nat × Range)}
    (hfit : ∀ e ∈ freeEntries slices, e.Fits) :
    (∀ t ∈ ((stageFrees a slices >>= commitStaged a) w).states, KeepsOwed a hosts slot w t) ↔
      ¬ TakesOver a cap slices.length w := by
  have hlen : (freeEntries slices).length = slices.length := by simp [freeEntries]
  have hnone : ¬ Relists a hosts slot w (owedBy .pending (freeEntries slices)) := by
    rw [show owedBy .pending (freeEntries slices) = [] from owedBy_freeEntries slices]
    exact h.not_relists_nil
  have hiff := h.persist_keeps_iff hfit
  rw [hlen, or_iff_left fun hcond => hnone hcond.2] at hiff
  rw [← hiff]
  refine ⟨fun hall t ht => hall t ?_, fun hall t ht => ?_⟩
  · change t ∈ (stageFrees a slices w).states at ht
    rcases List.mem_append.mp ht with ht | ht
    · exact List.mem_append_left _ (Prog.cuts_bind_left ht)
    · rw [List.mem_singleton.mp ht]
      cases hrun : stageFrees a slices w with
      | mk out w' cs =>
          cases out with
          | error e =>
              rw [Prog.bind_of_error hrun]
              exact List.mem_append_right _ (List.mem_singleton_self _)
          | ok b =>
              have hcut : w' ∈ (commitStaged a b w').cuts := Prog.cuts_bind_left (List.mem_singleton_self _)
              rw [Prog.bind_of_ok hrun]
              exact List.mem_append_left _ (List.mem_append_right _ hcut)
  · rcases persist_outcome h.log (freeEntries slices) .pending with ⟨htakes, -⟩ | ⟨htakes, -⟩ | ⟨-, e, w', cs, hrun, -⟩
    · exact absurd (hlen ▸ htakes) (hiff.mp hall)
    · exact absurd (hlen ▸ htakes) (hiff.mp hall)
    · have hstage : stageFrees a slices w = ⟨.error e, w', cs⟩ := hrun
      rw [Prog.bind_of_error hstage] at ht
      rw [hrun] at hall
      exact hall t ht

/-- Over every fault and every crash, the next operation keeps what an unfinished transaction owes exactly where it
does not take over the log, or lists it again. -/
theorem staging_keeps_owed_iff (h : Unfinished a hosts slot off cap status entries w) (op : Staging)
    (hop : op.Legal off cap status entries) :
    (∀ t ∈ op.states a w, KeepsOwed a hosts slot w t) ↔ op.Spares a hosts slot cap w := by
  have hstill : KeepsOwed a hosts slot w w := h.log.keepsOwed h.log
  have hlock : Unfinished a hosts slot off cap status entries (w.lock a.stack) := ⟨h.log, h.owes, h.live⟩
  cases op with
  | beginMany rs =>
      by_cases hheld : a.stack ∈ w.held
      · refine iff_of_true (fun t ht => ?_) (.inl hheld)
        have hacq : HeldLock.acquire a w = ⟨.error reentered, w, []⟩ := by
          simp only [HeldLock.acquire, Prog.volatile_apply, if_pos hheld]
        rw [Staging.states, WalTxn.beginMany, Prog.bind_of_error hacq] at ht
        rw [List.mem_singleton.mp ht]
        exact hstill
      · have hiff := hlock.persist_keeps_iff hop
        have howed : owedBy .pending (allocEntries rs) = rs.map fun r => (FileId.SELF, r) := owedBy_allocEntries rs
        rw [length_allocEntries, howed] at hiff
        rw [Staging.states, Staging.Spares, beginMany_keeps hosts slot hheld, or_iff_right hheld]
        exact hiff
  | append t logged r =>
      obtain ⟨hfit, rfl, rfl, rfl⟩ := hop
      by_cases hroom : logged.length < cap
      · exact iff_of_true (append_keeps h.log hfit hroom) (.inl hroom)
      · have hiff := h.persist_keeps_iff hfit
        have hlen : (allocEntries (logged ++ [r])).length = logged.length + 1 := by simp
        have hle : ¬ logged.length + 1 ≤ cap := fun hle => hroom hle
        rw [hlen, or_iff_left fun hcond => hle hcond.1] at hiff
        rw [Staging.states, Staging.Spares, or_iff_right hroom, ← hiff, WalTxn.append, if_neg hroom, ← allocEntries]
        cases hrun : HeldLock.persist a (allocEntries (logged ++ [r])) .pending w with
        | mk out w' cs =>
            cases out with
            | ok b =>
                rw [Prog.bind_of_ok hrun]
                simp only [Prog.pure_apply, Run.after_mk, Run.states, List.append_nil]
            | error e =>
                rw [Prog.bind_of_error hrun]
                exact Iff.rfl
  | commit slices => 
      rw [Staging.states, Staging.Spares, commitFrees]
      by_cases hnil : slices = []
      · rw [if_pos hnil]
        refine iff_of_true (fun t ht => ?_) (.inl hnil)
        rw [List.mem_singleton.mp ht]
        exact hstill
      rw [if_neg hnil, or_iff_right hnil]
      by_cases hbulk : a.atomicBulk ∧ ∀ p ∈ slices, p.1 = FileId.SELF
      · rw [if_pos hbulk, freeMany, if_pos hbulk.1]
        exact iff_of_true (bulkFreeMany_keeps _) (.inl hbulk)
      rw [if_neg hbulk, or_iff_right hbulk]
      by_cases hheld : a.stack ∈ w.held
      · rw [withLock_held hheld]
        refine iff_of_true (fun t ht => ?_) (.inl hheld)
        rw [List.mem_singleton.mp ht]
        exact hstill
      · rw [withLock_keeps hosts slot hheld, or_iff_right hheld]
        exact commitStaged_keeps_iff hlock hop

/-- Two home blocks, and a fault in the free of the first one. -/
def faultyFree : World :=
  { ((World.blank [0, 0, 2000, 300]).grant 0 ⟨100, 8⟩ (by decide)).grant 0 ⟨200, 8⟩ (by decide) with
    faults := List.replicate 10 false ++ [true] }

/-- What a teardown leaves that fails in the middle of its frees. -/
def halfFreed : World := (commitFrees (firstFit 0) [(0, ⟨100, 8⟩), (0, ⟨200, 8⟩)] faultyFree).final

theorem unfinished_halfFreed : Unfinished (firstFit 0) (fun _ => firstFit 1) STD_WAL_ANCHOR 2000 8
    WalStatus.complete.toU8 [⟨2, 1, 0, 100, 8⟩, ⟨1, 1, 0, 200, 8⟩] halfFreed := by
  refine ⟨⟨rfl, by decide, by decide +kernel, by decide +kernel, ?_⟩, by decide, by decide +kernel⟩
  exact ⟨by decide +kernel, by decide +kernel, by decide⟩

/-- The same, before a write in place that will fail. -/
def halfFreedFailing : World := { halfFreed with faults := [false, false, true] }

/-- A clone or a teardown that comes next forgets the second block. It is kept where the write in place fails, and
where the clone's first block is the one that is owed. -/
theorem staging_keeps_owed_iff_halfFreed :
    (¬ ∀ t ∈ (Staging.beginMany [⟨300, 8⟩]).states (firstFit 0) halfFreed,
      KeepsOwed (firstFit 0) (fun _ => firstFit 1) STD_WAL_ANCHOR halfFreed t) ∧
    (¬ ∀ t ∈ (Staging.commit [(0, ⟨300, 8⟩)]).states (firstFit 0) halfFreed,
      KeepsOwed (firstFit 0) (fun _ => firstFit 1) STD_WAL_ANCHOR halfFreed t) ∧
    (∀ t ∈ (Staging.beginMany [⟨200, 8⟩]).states (firstFit 0) halfFreed,
      KeepsOwed (firstFit 0) (fun _ => firstFit 1) STD_WAL_ANCHOR halfFreed t) ∧
    ∀ t ∈ (Staging.commit [(0, ⟨300, 8⟩)]).states (firstFit 0) halfFreedFailing,
      KeepsOwed (firstFit 0) (fun _ => firstFit 1) STD_WAL_ANCHOR halfFreedFailing t := by
  have hfit : ∀ e : WalEntry, e = ⟨1, 0, 0, 300, 8⟩ ∨ e = ⟨1, 1, 0, 300, 8⟩ ∨ e = ⟨1, 0, 0, 200, 8⟩ → e.Fits := by
    rintro e (rfl | rfl | rfl) <;> exact ⟨by decide, by decide, by decide⟩
  have hhalf := unfinished_halfFreed
  have hfailing : Unfinished (firstFit 0) (fun _ => firstFit 1) STD_WAL_ANCHOR 2000 8 WalStatus.complete.toU8
    [⟨2, 1, 0, 100, 8⟩, ⟨1, 1, 0, 200, 8⟩] halfFreedFailing := ⟨hhalf.log, hhalf.owes, hhalf.live⟩
  refine ⟨fun hkeeps => ?_, fun hkeeps => ?_, ?_, ?_⟩
  · have hspares := (staging_keeps_owed_iff hhalf (.beginMany [⟨300, 8⟩]) (fun e he => hfit e
      (.inl (List.mem_singleton.mp he)))).mp hkeeps
    revert hspares
    simp only [Staging.Spares]
    decide +kernel
  · have hspares := (staging_keeps_owed_iff hhalf (.commit [(0, ⟨300, 8⟩)]) (fun e he => hfit e
      (.inr (.inl (List.mem_singleton.mp he))))).mp hkeeps
    revert hspares
    simp only [Staging.Spares]
    decide +kernel
  · refine (staging_keeps_owed_iff hhalf (.beginMany [⟨200, 8⟩]) (fun e he => hfit e
      (.inr (.inr (List.mem_singleton.mp he))))).mpr ?_
    simp only [Staging.Spares]
    decide +kernel
  · refine (staging_keeps_owed_iff hfailing (.commit [(0, ⟨300, 8⟩)]) (fun e he => hfit e
      (.inr (.inl (List.mem_singleton.mp he))))).mpr ?_
    simp only [Staging.Spares]
    decide +kernel

/-- The clone that comes next takes over the log, and the second block is forgotten. -/
theorem next_clone_forgets_half_freed :
    (commitFrees (firstFit 0) [(0, ⟨100, 8⟩), (0, ⟨200, 8⟩)] faultyFree).out = .error ioFault ∧
      owed (halfFreed.files 0) STD_WAL_ANCHOR = [(0, ⟨200, 8⟩)] ∧
      (clonePass (firstFit 0) [.alloc 8] halfFreed).out = .ok ⟨some ⟨2000, 8, 1⟩, [⟨300, 8⟩]⟩ ∧
      ¬ KeepsOwed (firstFit 0) (fun _ => firstFit 1) STD_WAL_ANCHOR halfFreed
        (clonePass (firstFit 0) [.alloc 8] halfFreed).final := by
  have howed : owed (halfFreed.files 0) STD_WAL_ANCHOR = [(0, ⟨200, 8⟩)] := by decide +kernel
  refine ⟨by decide +kernel, howed, by decide +kernel, fun h => ?_⟩
  have hkept := h (0, ⟨200, 8⟩) (by
    rw [show (firstFit 0).stack = 0 from rfl, howed]
    exact List.mem_singleton_self _)
  revert hkept
  simp only [Kept]
  decide +kernel

end BStackRaii
