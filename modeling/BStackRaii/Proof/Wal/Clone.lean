import BStackRaii.Proof.Wal.Recover
import BStackRaii.Proof.Wal.Stage
import Mathlib.Data.List.Induction
/-!
# Crashes in an intention-first clone

While the block has a free slot, every crash point of a clone leaves a log of exactly the blocks
logged so far, and recovery frees these. The step that fills a full block up is different: it links
an empty block before it stages the log anew.
-/

namespace BStackRaii

/-- Recovery of `t`, by any opener, frees exactly `blocks`. -/
def Reclaims (a : Allocator) (t : World) (blocks : List Range) : Prop :=
  ∀ u, World.Reopened t u → ∃ n, (finish a u).out = .ok n ∧
    (finish a u).final.freed = t.freed ++ blocks.map fun r => (a.stack, r)

def World.restart (w : World) (attached : Nat → Option Allocator) (picks : List Nat) : World :=
  { w with attached, picks, held := [], faults := [] }

theorem World.reopened_restart (w : World) (attached : Nat → Option Allocator) (picks : List Nat) :
    World.Reopened w (w.restart attached picks) := ⟨rfl, rfl, rfl, rfl, rfl, rfl⟩

section Reclaims

variable {a : Allocator} {slot off cap : Nat} {status : UInt8} {entries : List WalEntry}
  {t : World} {blocks : List Range}

theorem finish_reopened {u : World} (hu : World.Reopened t u) :
    finish a u = ⟨(HeldLock.finish a (u.lock a.stack)).out,
      (HeldLock.finish a (u.lock a.stack)).final.unlock a.stack,
      (HeldLock.finish a (u.lock a.stack)).cuts⟩ :=
  withLock_run (by simp [hu.unlocked]) _

theorem reclaims_logAt (h : LogAt a slot off status cap entries (t.files a.stack))
    (hcap : cap ≤ WAL_MAX_CAP)
    (hrec : Reclaimable (t.files a.stack) (owedBy (WalStatus.fromU8 status) entries)) :
    Reclaims a t ((owedBy (WalStatus.fromU8 status) entries).map Prod.snd) := by
  intro u hu
  obtain ⟨n, w', cs, hrun, hfreed⟩ := heldFinish_run (w := u.lock a.stack) hu.quiet
    (by rw [World.files_lock, hu.files]; exact h) hcap (by rw [World.files_lock, hu.files]; exact hrec)
  rw [finish_reopened hu, hrun]
  refine ⟨n, rfl, ?_⟩
  rw [World.freed_unlock, hfreed, World.freed_lock, hu.freed, List.map_map]
  rfl

theorem reclaims_nothing (h : LogAt a slot off status cap entries (t.files a.stack))
    (hcap : cap ≤ WAL_MAX_CAP) (howed : owedBy (WalStatus.fromU8 status) entries = []) :
    Reclaims a t [] := by
  have hr := reclaims_logAt h hcap (by rw [howed]; exact ⟨by simp, by simp, by simp⟩)
  rwa [howed] at hr

theorem reclaims_noLog (h : NoLog a slot (t.files a.stack)) : Reclaims a t [] := by
  intro u hu
  have hrun := heldFinish_noLog (a := a) (w := u.lock a.stack) hu.quiet
    (by rw [World.files_lock, hu.files]; exact h)
  rw [finish_reopened hu, hrun]
  exact ⟨0, rfl, by simp [hu.freed]⟩

theorem not_reclaims_oversized (h : LogAt a slot off status cap entries (t.files a.stack))
    (hcap : WAL_MAX_CAP < cap) (blocks : List Range) : ¬ Reclaims a t blocks := by
  intro hr
  have hu := World.reopened_restart t (fun _ => none) []
  obtain ⟨n, hn, -⟩ := hr _ hu
  have hrun := heldFinish_oversized (w := (t.restart (fun _ => none) []).lock a.stack) hu.quiet
    (by rw [World.files_lock, hu.files]; exact h) hcap
  rw [finish_reopened hu, hrun] at hn
  cases hn

/-- A recovery frees one list of blocks. -/
theorem Reclaims.unique {blocks' : List Range} (h : Reclaims a t blocks) (h' : Reclaims a t blocks') :
    blocks = blocks' := by
  have hu := World.reopened_restart t (fun _ => none) []
  obtain ⟨_, _, hf⟩ := h _ hu
  obtain ⟨_, _, hf'⟩ := h' _ hu
  rw [hf] at hf'
  have hmap := List.append_cancel_left hf'
  exact List.map_injective_iff.mpr (fun x y hxy => congrArg Prod.snd hxy) hmap

end Reclaims

/-! ### The state between two steps of a clone -/

def allocEntries (rs : List Range) : List WalEntry := rs.map (.alloc .pending)

@[simp] theorem length_allocEntries (rs : List Range) : (allocEntries rs).length = rs.length := by
  simp [allocEntries]

theorem owedBy_allocEntries (rs : List Range) :
    owedBy (WalStatus.fromU8 WalStatus.pending.toU8) (allocEntries rs) =
      rs.map fun r => (FileId.SELF, r) := by
  rw [owedBy_eq, WalStatus.fromU8_toU8, if_neg (by decide)]
  induction rs with
  | nil => rfl
  | cons r rs ih =>
      have hhead : HeldLock.orphan (decide (WalStatus.pending = WalStatus.complete))
          (.alloc .pending r) = some r := rfl
      rw [allocEntries, List.map_cons, orphans_cons_some _ hhead, List.map_cons]
      exact congrArg _ ih

theorem allocEntry_fits {f : File} {r : Range} (hr : r ∈ f.live) (st : WalStatus) :
    (WalEntry.alloc st r).Fits := by
  have hstop := (f.inside r hr).2
  have hlt := f.addressable
  rw [Range.stop] at hstop
  refine ⟨by simp [WalEntry.alloc, WalEntry.allocIn, FileId.SELF], ?_, ?_⟩
  · simp only [WalEntry.alloc, WalEntry.allocIn]
    omega
  · simp only [WalEntry.alloc, WalEntry.allocIn]
    omega

/-- Every block of the clone in flight is logged, live and new. -/
structure Logged (a : Allocator) (slot off cap : Nat) (before : File) (allocated : List Range)
    (f : File) : Prop where
  log : LogAt a slot off WalStatus.pending.toU8 cap (allocEntries allocated) f
  capacity : cap ≤ WAL_MAX_CAP
  live : ∀ r ∈ allocated, r ∈ f.live
  nodup : allocated.Nodup
  apart : (WalBlock.at off cap).range ∉ allocated
  keeps : ∀ r ∈ before.live, r ∈ f.live
  fresh : ∀ r ∈ allocated, r ∉ before.live

section Logged

variable {a : Allocator} {slot off cap : Nat} {before f : File} {allocated : List Range}
  {r : Range} {t : World}

theorem Logged.reclaims (h : Logged a slot off cap before allocated (t.files a.stack)) :
    Reclaims a t allocated := by
  have hrec : Reclaimable (t.files a.stack)
      (owedBy (WalStatus.fromU8 WalStatus.pending.toU8) (allocEntries allocated)) := by
    rw [owedBy_allocEntries]
    refine ⟨?_, ?_, by simpa [List.map_map, Function.comp_def] using h.nodup⟩
    · intro p hp
      obtain ⟨r, -, rfl⟩ := List.mem_map.mp hp
      rfl
    · intro p hp
      obtain ⟨r, hr, rfl⟩ := List.mem_map.mp hp
      exact h.live r hr
  have hr := reclaims_logAt h.log h.capacity hrec
  rw [owedBy_allocEntries, List.map_map] at hr
  simpa [Function.comp_def] using hr

theorem Logged.not_mem (h : Logged a slot off cap before allocated f) (hr : f.Admits r) :
    r ∉ allocated ∧ r ∉ before.live ∧ r ≠ (WalBlock.at off cap).range :=
  ⟨fun hm => Range.not_apart_self _ (hr.2.2 r (h.live r hm)),
    fun hm => Range.not_apart_self _ (hr.2.2 r (h.keeps r hm)),
    fun he => Range.not_apart_self _ (hr.2.2 r (he ▸ h.log.live))⟩

theorem Logged.allocAt (h : Logged a slot off cap before allocated f) (hr : f.Admits r) :
    Logged a slot off cap before allocated (f.allocAt r hr) :=
  ⟨h.log.allocAt hr, h.capacity, fun x hx => List.mem_cons_of_mem _ (h.live x hx), h.nodup, h.apart,
    fun x hx => List.mem_cons_of_mem _ (h.keeps x hx), h.fresh⟩

theorem Logged.write_spare (h : Logged a slot off cap before allocated f) (e : WalEntry) :
    Logged a slot off cap before allocated
      (f.write (off + WAL_HEADER_SIZE + allocated.length * WAL_ENTRY_SIZE) e.encode) := by
  have hlog := h.log.write_spare e
  rw [length_allocEntries] at hlog
  exact ⟨hlog, h.capacity, h.live, h.nodup, h.apart, h.keeps, h.fresh⟩

theorem Logged.fill (h : Logged a slot off cap before allocated f) (hr : r ∈ allocated) {pos : Nat}
    {data : List UInt8} (hfit : pos + data.length ≤ r.len) :
    Logged a slot off cap before allocated (f.write (r.start + pos) data) := by
  have hne : r ≠ (WalBlock.at off cap).range := fun he => h.apart (he ▸ hr)
  refine ⟨h.log.write_live (h.live r hr) hne (by omega) ?_, h.capacity, h.live, h.nodup, h.apart,
    h.keeps, h.fresh⟩
  rw [Range.stop]
  omega

theorem Logged.append (h : Logged a slot off cap before allocated f) (hr : f.Admits r)
    (hroom : allocated.length < cap) :
    Logged a slot off cap before (allocated ++ [r])
      (((f.allocAt r hr).write (off + WAL_HEADER_SIZE + allocated.length * WAL_ENTRY_SIZE)
        (WalEntry.alloc .pending r).encode).write (off + WAL_COUNT_OFFSET)
          (leBytes 8 (allocated.length + 1))) := by
  obtain ⟨hnew, hold, hblock⟩ := h.not_mem hr
  have hmem : r ∈ (f.allocAt r hr).live := List.mem_cons_self ..
  have hlog := (h.log.allocAt hr).publish (allocEntry_fits hmem .pending) (by simpa using hroom)
  rw [length_allocEntries] at hlog
  refine ⟨?_, h.capacity, ?_, ?_, ?_, fun x hx => List.mem_cons_of_mem _ (h.keeps x hx), ?_⟩
  · simpa [allocEntries] using hlog
  · intro x hx
    rcases List.mem_append.mp hx with hx | hx
    · exact List.mem_cons_of_mem _ (h.live x hx)
    · rw [List.mem_singleton.mp hx]
      exact hmem
  · exact List.nodup_append.mpr ⟨h.nodup, by simp, fun x hx y hy he =>
      hnew (List.mem_singleton.mp hy ▸ he ▸ hx)⟩
  · intro hm
    rcases List.mem_append.mp hm with hm | hm
    · exact h.apart hm
    · exact hblock (List.mem_singleton.mp hm).symm
  · intro x hx
    rcases List.mem_append.mp hx with hx | hx
    · exact h.fresh x hx
    · rw [List.mem_singleton.mp hx]
      exact hold

/-- The first block of a clone, staged into an idle log. -/
theorem Logged.first {status : UInt8} {entries : List WalEntry} {before g : File}
    (hat : LogAt a slot off status cap entries g) (hcap : cap ≤ WAL_MAX_CAP) (hpos : 0 < cap)
    (hr : r ∈ g.live) (hne : r ≠ (WalBlock.at off cap).range) (hnew : r ∉ before.live)
    (hkeeps : ∀ x ∈ before.live, x ∈ g.live) :
    Logged a slot off cap before [r]
      (g.write off (blockImage (allocEntries [r]) .pending cap)) := by
  refine ⟨hat.image .pending ?_ (by rw [length_allocEntries]; exact hpos), hcap, ?_, by simp, ?_, hkeeps, ?_⟩
  · intro e he
    simp only [allocEntries, List.map_cons, List.map_nil, List.mem_singleton] at he
    exact he ▸ allocEntry_fits hr .pending
  · intro x hx
    exact List.mem_singleton.mp hx ▸ hr
  · intro hm
    exact hne (List.mem_singleton.mp hm).symm
  · intro x hx
    exact List.mem_singleton.mp hx ▸ hnew

end Logged

/-! ### One step of a clone -/

section Step

variable {a : Allocator} {slot off cap : Nat} {before : File} {log log' : CloneLog} {w : World}

theorem allocLogged_inv {size : Nat} {res : CloneLog × Range} (hq : w.Quiet)
    (hanchor : a.walAnchor = some slot) (hok : (allocLogged a log size w).out = .ok res) :
    ∃ r, ∃ h : (w.files a.stack).Admits r, ∃ t w' cs,
      logAlloc a log.wal log.allocated r (w.grant a.stack r h) = ⟨.ok t, w', cs⟩ ∧
      allocLogged a log size w = ⟨.ok (⟨some t, log.allocated ++ [r]⟩, r), w', w :: cs⟩ := by
  rw [allocLogged] at hok ⊢
  obtain ⟨r, hr, hrest, -⟩ := Prog.bind_ok_inv hok
  obtain ⟨hadm, -, hrun⟩ := alloc_inv hq hr
  refine ⟨r, hadm, ?_⟩
  rw [hrun] at hrest
  rw [Prog.bind_of_ok hrun, hanchor]
  rw [hanchor] at hrest
  simp only [Option.isSome_some, if_true] at hrest ⊢
  rw [Prog.bind_of_ok (Prog.attempt_apply ..)] at hrest ⊢
  cases hlog : logAlloc a log.wal log.allocated r (w.grant a.stack r hadm) with
  | mk out w' cs =>
      rw [hlog] at hrest
      cases out with
      | ok t => exact ⟨t, w', cs, rfl, by simp⟩
      | error e =>
          simp only at hrest
          rw [Prog.bind_of_ok (Prog.attempt_apply ..)] at hrest
          cases hrest

theorem cloneStep_alloc_inv {size : Nat} (hq : w.Quiet) (hanchor : a.walAnchor = some slot)
    (hok : (cloneStep a log (.alloc size) w).out = .ok log') :
    ∃ r, ∃ h : (w.files a.stack).Admits r, ∃ t w' cs,
      logAlloc a log.wal log.allocated r (w.grant a.stack r h) = ⟨.ok t, w', cs⟩ ∧
      log' = ⟨some t, log.allocated ++ [r]⟩ ∧
      cloneStep a log (.alloc size) w = ⟨.ok log', w', w :: cs⟩ := by
  rw [cloneStep] at hok ⊢
  obtain ⟨res, hres, -⟩ := Prog.bind_ok_inv hok
  obtain ⟨r, h, t, w', cs, hlog, hrun⟩ := allocLogged_inv hq hanchor hres
  rw [Prog.bind_of_ok hrun] at hok ⊢
  cases hok
  exact ⟨r, h, t, w', cs, hlog, rfl, by simp⟩

theorem cloneStep_fill_inv {i pos : Nat} {data : List UInt8} (hq : w.Quiet)
    (hlive : ∀ r ∈ log.allocated, r ∈ (w.files a.stack).live)
    (hok : (cloneStep a log (.fill i pos data) w).out = .ok log') :
    ∃ r ∈ log.allocated, pos + data.length ≤ r.len ∧ log' = log ∧
      cloneStep a log (.fill i pos data) w = ⟨.ok log, w.store a.stack (r.start + pos) data, [w]⟩ := by
  rw [cloneStep] at hok ⊢
  cases hr : log.allocated[i]? with
  | none =>
      simp only [hr] at hok
      cases hok
  | some r =>
      have hmem := List.mem_of_getElem? hr
      simp only [hr] at hok ⊢
      by_cases hfit : pos + data.length ≤ r.len
      · have hstop := ((w.files a.stack).inside r (hlive r hmem)).2
        rw [Range.stop] at hstop
        rw [if_pos hfit] at hok ⊢
        rw [Prog.bind_of_ok (set_run _ _ _ hq (by omega))] at hok ⊢
        cases hok
        exact ⟨r, hmem, hfit, rfl, by simp⟩
      · rw [if_neg hfit] at hok
        cases hok

def txnOf (off cap : Nat) (allocated : List Range) : CloneLog :=
  ⟨some ⟨off, cap, allocated.length⟩, allocated⟩

/-- Between two steps, and at each crash point inside one, the log is of the blocks logged so far. -/
theorem cloneStep_logged {op : CloneStep} {allocated : List Range} (hq : w.Quiet)
    (h : Logged a slot off cap before allocated (w.files a.stack))
    (hroom : allocated.length + allocations [op] ≤ cap)
    (hok : (cloneStep a (txnOf off cap allocated) op w).out = .ok log') :
    ∃ allocated', log' = txnOf off cap allocated' ∧
      allocated'.length = allocated.length + allocations [op] ∧
      (cloneStep a (txnOf off cap allocated) op w).final.Quiet ∧
      Logged a slot off cap before allocated'
        ((cloneStep a (txnOf off cap allocated) op w).final.files a.stack) ∧
      ∀ t ∈ (cloneStep a (txnOf off cap allocated) op w).cuts, Reclaims a t allocated := by
  cases op with
  | fill i pos data =>
      obtain ⟨r, hr, hfit, rfl, hrun⟩ := cloneStep_fill_inv hq h.live hok
      rw [hrun]
      refine ⟨allocated, rfl, rfl, hq, ?_, ?_⟩
      · rw [World.files_store_same]
        exact h.fill hr hfit
      · intro t ht
        rw [List.mem_singleton.mp ht]
        exact h.reclaims
  | alloc size =>
      have hroom' : allocated.length < cap := hroom
      obtain ⟨r, hadm, t, w', cs, hlog, rfl, hrun⟩ := cloneStep_alloc_inv hq h.log.anchor hok
      have hgrant : Logged a slot off cap before allocated ((w.grant a.stack r hadm).files a.stack) := by
        rw [World.files_grant_same]
        exact h.allocAt hadm
      have hstop := hgrant.log.stop_le
      have hslot : allocated.length * WAL_ENTRY_SIZE + WAL_ENTRY_SIZE ≤ cap * WAL_ENTRY_SIZE := by
        rw [← Nat.succ_mul]
        exact Nat.mul_le_mul_right _ hroom'
      have hq1 : (w.grant a.stack r hadm).Quiet := hq
      generalize hw1 : w.grant a.stack r hadm = w1 at *
      have hset := set_run a.stack (off + WAL_HEADER_SIZE + allocated.length * WAL_ENTRY_SIZE)
        (WalEntry.alloc .pending r).encode hq1 (by rw [WalEntry.length_encode]; omega)
      have hspare : Logged a slot off cap before allocated
          ((w1.store a.stack (off + WAL_HEADER_SIZE + allocated.length * WAL_ENTRY_SIZE)
            (WalEntry.alloc .pending r).encode).files a.stack) := by
        rw [World.files_store_same]
        exact hgrant.write_spare _
      generalize hw2 : w1.store a.stack (off + WAL_HEADER_SIZE + allocated.length * WAL_ENTRY_SIZE)
        (WalEntry.alloc .pending r).encode = w2 at *
      have hcount := set_run a.stack (off + WAL_COUNT_OFFSET) (leBytes 8 (allocated.length + 1))
        (w := w2) (by rw [← hw2]; exact hq1) (by
          rw [← hw2, World.files_store_same, File.len_write, length_leBytes]
          simp only [WAL_COUNT_OFFSET, WAL_HEADER_SIZE] at *
          omega)
      have happend : logAlloc a (txnOf off cap allocated).wal (txnOf off cap allocated).allocated r w1 =
          ⟨.ok ⟨off, cap, allocated.length + 1⟩,
            w2.store a.stack (off + WAL_COUNT_OFFSET) (leBytes 8 (allocated.length + 1)), [w1, w2]⟩ := by
        simp only [logAlloc, txnOf, WalTxn.append, if_pos hroom', HeldLock.appendAlloc]
        rw [Prog.bind_of_ok (show _ = _ from (Prog.bind_of_ok hset).trans (by rw [hcount]; rfl))]
        rfl
      rw [happend] at hlog
      cases hlog
      rw [hrun]
      refine ⟨allocated ++ [r], ?_, by simp [allocations], ?_, ?_, ?_⟩
      · simp [txnOf]
      · rw [World.quiet_store, ← hw2, World.quiet_store]
        exact hq1
      · rw [World.files_store_same, ← hw2, World.files_store_same, ← hw1, World.files_grant_same]
        exact h.append hadm hroom'
      · intro t ht
        simp only [List.mem_cons, List.not_mem_nil, or_false] at ht
        rcases ht with rfl | rfl | rfl
        · exact h.reclaims
        · exact hgrant.reclaims
        · exact hspare.reclaims

/-- A successful begin is a staging under the lock. -/
theorem beginMany_inv {rs : List Range} {t : WalTxn} (hok : (WalTxn.beginMany a rs w).out = .ok t) :
    ∃ b w' cs, HeldLock.persist a (allocEntries rs) .pending (w.lock a.stack) = ⟨.ok b, w', cs⟩ ∧
      WalTxn.beginMany a rs w = ⟨.ok ⟨b.range.start, b.capacity, rs.length⟩, w', cs⟩ := by
  rw [WalTxn.beginMany] at hok ⊢
  obtain ⟨_, hacq, -⟩ := Prog.bind_ok_inv hok
  have hrun : HeldLock.acquire a w = ⟨.ok (), w.lock a.stack, []⟩ := by
    simp only [HeldLock.acquire, Prog.volatile_apply] at hacq ⊢
    by_cases hheld : a.stack ∈ w.held
    · rw [if_pos hheld] at hacq
      cases hacq
    · rw [if_neg hheld]
  rw [Prog.bind_of_ok hrun, Prog.bind_of_ok (Prog.attempt_apply ..)] at hok ⊢
  rw [← allocEntries] at *
  cases hp : HeldLock.persist a (allocEntries rs) .pending (w.lock a.stack) with
  | mk out w' cs =>
      rw [hp] at hok
      cases out with
      | ok b => exact ⟨b, w', cs, rfl, by simp⟩
      | error e =>
          simp only at hok
          rw [Prog.bind_of_ok (show HeldLock.drop a w' = ⟨.ok (), _, []⟩ from rfl)] at hok
          cases hok

/-- The log of a file as the library leaves it: none yet, or a block of the minimal capacity at
least. -/
inductive WalReady (a : Allocator) (slot : Nat) (f : File) : Prop
  | absent (h : NoLog a slot f)
  | block {off cap : Nat} {status : UInt8} {entries : List WalEntry}
      (h : LogAt a slot off status cap entries f) (hcap : WAL_MIN_CAP ≤ cap)

theorem WalReady.anchor {f : File} (h : WalReady a slot f) : a.walAnchor = some slot := by
  cases h with
  | absent h => exact h.anchor
  | block h _ => exact h.anchor

/-- The slots the first transaction on a file gets: those of its block, or of a fresh one. -/
def firstSlots (f : File) (slot : Nat) : Nat :=
  if f.bytes.word slot = 0 then WAL_MIN_CAP
  else (WalHeader.decode (f.bytes.read (f.bytes.word slot) WAL_HEADER_SIZE)).capacity

theorem NoLog.firstSlots_eq {f : File} (h : NoLog a slot f) : firstSlots f slot = WAL_MIN_CAP := by
  rw [firstSlots, if_pos h.null]

theorem LogAt.firstSlots_eq {status : UInt8} {entries : List WalEntry} {f : File}
    (h : LogAt a slot off status cap entries f) : firstSlots f slot = cap := by
  have hoff : off ≠ 0 := by have := h.off_ge; omega
  rw [firstSlots, h.points, if_neg hoff, h.holds.header]

theorem WalReady.firstSlots_pos {f : File} (h : WalReady a slot f) : 0 < firstSlots f slot := by
  have hmin : 0 < WAL_MIN_CAP := by decide
  cases h with
  | absent h =>
      rw [h.firstSlots_eq]
      exact hmin
  | block h hcap =>
      rw [h.firstSlots_eq]
      exact Nat.lt_of_lt_of_le hmin hcap

/-- The first allocation of a clone begins its log. No crash point of it owes a block. -/
theorem cloneStep_first {size : Nat} (hq : w.Quiet) (hready : WalReady a slot (w.files a.stack))
    (howed : owed (w.files a.stack) slot = [])
    (hok : (cloneStep a ⟨none, []⟩ (.alloc size) w).out = .ok log') :
    ∃ off r, log' = txnOf off (firstSlots (w.files a.stack) slot) [r] ∧
      (cloneStep a ⟨none, []⟩ (.alloc size) w).final.Quiet ∧
      Logged a slot off (firstSlots (w.files a.stack) slot) (w.files a.stack) [r]
        ((cloneStep a ⟨none, []⟩ (.alloc size) w).final.files a.stack) ∧
      w ∈ (cloneStep a ⟨none, []⟩ (.alloc size) w).cuts ∧
      ∀ t ∈ (cloneStep a ⟨none, []⟩ (.alloc size) w).cuts, Reclaims a t [] := by
  obtain ⟨r, hadm, t, w', cs, hlog, rfl, hrun⟩ := cloneStep_alloc_inv hq hready.anchor hok
  have hbegin : (WalTxn.beginMany a [r] (w.grant a.stack r hadm)).out = .ok t := congrArg Run.out hlog
  obtain ⟨b, w'', cs'', hpersist, hmany⟩ := beginMany_inv hbegin
  have hlog' := hmany.symm.trans hlog
  cases hlog'
  have hnew : r ∉ (w.files a.stack).live := fun hm => Range.not_apart_self _ (hadm.2.2 r hm)
  have hq1 : ((w.grant a.stack r hadm).lock a.stack).Quiet := hq
  have hfile : ((w.grant a.stack r hadm).lock a.stack).files a.stack =
      (w.files a.stack).allocAt r hadm := by
    rw [World.files_lock, World.files_grant_same]
  rw [hrun]
  generalize hw1 : (w.grant a.stack r hadm).lock a.stack = w1 at hpersist hq1 hfile
  have hr1 : r ∈ (w1.files a.stack).live := hfile ▸ List.mem_cons_self ..
  have hkeep1 : ∀ x ∈ (w.files a.stack).live, x ∈ (w1.files a.stack).live := fun x hx =>
    hfile ▸ List.mem_cons_of_mem _ hx
  cases hready with
  | absent hno =>
      have hno1 : NoLog a slot (w1.files a.stack) := hfile ▸ hno.allocAt hadm
      rcases persist_noLog_cases (allocEntries [r]) .pending hq1 hno1 with
        ⟨e, w'', hp, -⟩ | ⟨p, c, h, hc, hp⟩
      · cases congrArg Run.out (hpersist.symm.trans hp)
      cases congrArg Run.out (hpersist.symm.trans hp)
      obtain ⟨rfl, rfl⟩ := (Run.mk.injEq ..).mp (hpersist.symm.trans hp) |>.2
      have hslots : c = firstSlots (w.files a.stack) slot := by
        rw [hno.firstSlots_eq, hc]
        exact freshCapacity_small (by rw [length_allocEntries, List.length_singleton]; decide)
      rw [← hslots]
      have hat := logAt_linked hno.anchor hno.reserved h
      have hcap : c ≤ WAL_MAX_CAP := by
        rw [hslots, hno.firstSlots_eq]
        decide
      have hpos : 0 < c := hslots ▸ (WalReady.absent hno).firstSlots_pos
      refine ⟨p, r, rfl, ?_, ?_, List.mem_cons_self .., ?_⟩
      · simpa [linked, initialised] using hq1
      · simp only
        rw [World.files_store_same]
        refine Logged.first hat hcap hpos ?_ ?_ hnew fun x hx => ?_
        · rw [live_linked]
          exact List.mem_cons_of_mem _ hr1
        · exact fun he => Range.not_apart_self _ (he ▸ h.2.2 r hr1)
        · rw [live_linked]
          exact List.mem_cons_of_mem _ (hkeep1 x hx)
      · intro t ht
        obtain ⟨hg, hi⟩ := hno1.initialised (h := h)
        simp only [List.mem_cons, List.not_mem_nil, or_false] at ht
        rcases ht with rfl | rfl | rfl | rfl | rfl
        · exact reclaims_noLog hno
        · exact reclaims_noLog hno1
        · exact reclaims_noLog hg
        · exact reclaims_noLog hi
        · exact reclaims_nothing hat hcap rfl
  | block hat hmin =>
      rename_i off cap status entries
      have hat1 : LogAt a slot off status cap entries (w1.files a.stack) := hfile ▸ hat.allocAt hadm
      have hnone := hat.owed_eq.symm.trans howed
      have hpos : 0 < cap := Nat.lt_of_lt_of_le (by decide) hmin
      rcases persist_logAt_cases (allocEntries [r]) .pending hq1 hat1 with
        ⟨e, w'', cs', hp, -⟩ | ⟨hcap, -, hp⟩ | ⟨-, hfull, -⟩
      · cases congrArg Run.out (hpersist.symm.trans hp)
      · cases congrArg Run.out (hpersist.symm.trans hp)
        obtain ⟨rfl, rfl⟩ := (Run.mk.injEq ..).mp (hpersist.symm.trans hp) |>.2
        rw [hat.firstSlots_eq]
        refine ⟨off, r, rfl, hq1, ?_, List.mem_cons_self .., ?_⟩
        · simp only
          rw [World.files_store_same]
          exact Logged.first hat1 hcap hpos hr1
            (fun he => Range.not_apart_self _ (hadm.2.2 r (he ▸ hat.live))) hnew hkeep1
        · intro t ht
          simp only [List.mem_cons, List.not_mem_nil, or_false] at ht
          rcases ht with rfl | rfl
          · exact reclaims_nothing hat hcap hnone
          · exact reclaims_nothing hat1 hcap hnone
      · rw [length_allocEntries, List.length_singleton] at hfull
        omega

/-- Logging past a full block has a crash point at which recovery frees no block. -/
theorem cloneStep_grow {size : Nat} {allocated : List Range} (hq : w.Quiet)
    (h : Logged a slot off cap before allocated (w.files a.stack)) (hfull : allocated.length = cap)
    (hok : (cloneStep a (txnOf off cap allocated) (.alloc size) w).out = .ok log') :
    ∃ t ∈ (cloneStep a (txnOf off cap allocated) (.alloc size) w).cuts,
      ∀ blocks, Reclaims a t blocks → blocks = [] := by
  obtain ⟨r, hadm, t, w', cs, hlog, rfl, hrun⟩ := cloneStep_alloc_inv hq h.log.anchor hok
  rw [hrun]
  have hgrant : Logged a slot off cap before allocated ((w.grant a.stack r hadm).files a.stack) := by
    rw [World.files_grant_same]
    exact h.allocAt hadm
  have hq1 : (w.grant a.stack r hadm).Quiet := hq
  generalize w.grant a.stack r hadm = w1 at *
  have hpersist : (HeldLock.persist a (allocEntries (allocated ++ [r])) .pending >>= fun block =>
      pure ⟨block.range.start, block.capacity, allocated.length + 1⟩) w1 = ⟨.ok t, w', cs⟩ := by
    rw [← hlog]
    simp only [logAlloc, txnOf, WalTxn.append, hfull, Nat.lt_irrefl, if_false]
    rfl
  obtain ⟨b, hb, -, -, hcuts⟩ := Prog.bind_ok_inv (congrArg Run.out hpersist)
  rcases persist_logAt_cases (allocEntries (allocated ++ [r])) .pending hq1 hgrant.log with
    ⟨e, w'', cs', hrun', -⟩ | ⟨-, hle, -⟩ | ⟨-, -, p, c, hp, hc, hrun'⟩
  · rw [hrun'] at hb
    cases hb
  · rw [length_allocEntries, List.length_append, List.length_singleton] at hle
    omega
  · have hcs : linked w1 a.stack slot p _ hp ∈ cs := by
      rw [hpersist, hrun'] at hcuts
      rw [show cs = _ from hcuts]
      simp
    have hat := logAt_linked hgrant.log.anchor hgrant.log.reserved hp
    refine ⟨_, List.mem_cons_of_mem _ hcs, fun blocks hblocks => ?_⟩
    by_cases hmax : c ≤ WAL_MAX_CAP
    · exact hblocks.unique (reclaims_nothing hat hmax rfl)
    · exact absurd hblocks (not_reclaims_oversized hat (Nat.not_le.mp hmax) _)

end Step

/-! ### Whole passes -/

section Pass

variable {a : Allocator} {slot : Nat} {w : World}

theorem cloneSteps_append (xs ys : List CloneStep) (log : CloneLog) :
    cloneSteps a (xs ++ ys) log = cloneSteps a xs log >>= cloneSteps a ys := by
  induction xs generalizing log with
  | nil => simp [cloneSteps]
  | cons x xs ih => simp only [List.cons_append, cloneSteps, ih, bind_assoc]

theorem clonePass_concat (xs : List CloneStep) (op : CloneStep) :
    clonePass a (xs ++ [op]) = clonePass a xs >>= fun log => cloneStep a log op := by
  simp only [clonePass, cloneSteps_append, cloneSteps, bind_pure]

/-- Where a pass returns, each of its steps returned. -/
theorem clonePass_prefix {xs ys : List CloneStep} {op : CloneStep} {log : CloneLog}
    (hok : (clonePass a (xs ++ op :: ys) w).out = .ok log) :
    ∃ log1 log2, (clonePass a xs w).out = .ok log1 ∧
      (cloneStep a log1 op (clonePass a xs w).final).out = .ok log2 ∧
      (clonePass a (xs ++ [op]) w).out = .ok log2 ∧
      (clonePass a (xs ++ [op]) w).final = (cloneStep a log1 op (clonePass a xs w).final).final := by
  rw [List.append_cons, clonePass, cloneSteps_append, ← clonePass] at hok
  obtain ⟨log2, h2, -⟩ := Prog.bind_ok_inv hok
  have h2' := h2
  rw [clonePass_concat] at h2'
  obtain ⟨log1, h1, hstep, hfin, -⟩ := Prog.bind_ok_inv h2'
  exact ⟨log1, log2, h1, hstep, h2, by rw [clonePass_concat]; exact hfin⟩

theorem allocations_append (xs ys : List CloneStep) :
    allocations (xs ++ ys) = allocations xs + allocations ys := List.countP_append ..

/-- The first step of a pass that returns is an allocation. -/
theorem first_is_alloc {op : CloneStep} {log : CloneLog}
    (hok : (cloneStep a ⟨none, []⟩ op w).out = .ok log) : ∃ size, op = .alloc size := by
  cases op with
  | alloc size => exact ⟨size, rfl⟩
  | fill i pos data => cases hok

/-- The run lemma: after any first part of a pass that fits the block, its blocks are logged. -/
theorem clonePass_logged (hq : w.Quiet) (hready : WalReady a slot (w.files a.stack))
    (howed : owed (w.files a.stack) slot = []) (done : List CloneStep) :
    ∀ {log : CloneLog}, done ≠ [] → allocations done ≤ firstSlots (w.files a.stack) slot →
      (clonePass a done w).out = .ok log →
      ∃ off allocated, log = txnOf off (firstSlots (w.files a.stack) slot) allocated ∧
        allocated.length = allocations done ∧ (clonePass a done w).final.Quiet ∧
        Logged a slot off (firstSlots (w.files a.stack) slot) (w.files a.stack) allocated
          ((clonePass a done w).final.files a.stack) := by
  induction done using List.reverseRecOn with
  | nil => exact fun h => absurd rfl h
  | append_singleton done op ih =>
      intro log _ hle hok
      obtain ⟨log1, log2, h1, hstep, h2, hfin⟩ := clonePass_prefix hok
      rw [hok] at h2
      cases h2
      rw [hfin]
      rw [allocations_append] at hle ⊢
      by_cases hnil : done = []
      · subst hnil
        cases h1
        obtain ⟨size, rfl⟩ := first_is_alloc hstep
        obtain ⟨off, r, hlog, hq', hlogged, -⟩ := cloneStep_first hq hready howed hstep
        exact ⟨off, [r], hlog, rfl, hq', hlogged⟩
      · obtain ⟨off, allocated, rfl, hlen, hq1, hlogged⟩ := ih hnil (by omega) h1
        obtain ⟨allocated', hlog, hlen', hq', hlogged', -⟩ :=
          cloneStep_logged hq1 hlogged (by omega) hstep
        exact ⟨off, allocated', hlog, by omega, hq', hlogged'⟩

/-- What the one-block window promises of a pass. Between two steps recovery frees exactly the
blocks allocated so far, none of which was live before. Inside a step it frees these, with or
without the one block the step itself allocates. -/
def CrashReclaimable (a : Allocator) (ops : List CloneStep) (w : World) : Prop :=
  ∀ done rest log, ops = done ++ rest → (clonePass a done w).out = .ok log →
    Reclaims a (clonePass a done w).final log.allocated ∧
    (∀ r ∈ log.allocated, r ∉ (w.files a.stack).live) ∧
    ∀ op ∈ rest.head?, ∀ t ∈ (cloneStep a log op (clonePass a done w).final).cuts,
      Reclaims a t log.allocated ∨
      ∃ log', (cloneStep a log op (clonePass a done w).final).out = .ok log' ∧
        Reclaims a t log'.allocated

theorem reclaimable_of_fits (hq : w.Quiet) (hready : WalReady a slot (w.files a.stack))
    {ops : List CloneStep} {log : CloneLog} (hrun : (clonePass a ops w).out = .ok log)
    (hpos : 0 < allocations ops) (howed : owed (w.files a.stack) slot = [])
    (hle : allocations ops ≤ firstSlots (w.files a.stack) slot) : CrashReclaimable a ops w := by
  intro done rest log1 hops hdone
  subst hops
  by_cases hnil : done = []
  · subst hnil
    cases hdone
    cases rest with
    | nil => exact absurd hpos (Nat.lt_irrefl 0)
    | cons op rest =>
        obtain ⟨log1, log2, h1, hstep, -⟩ := clonePass_prefix hrun
        cases h1
        obtain ⟨size, rfl⟩ := first_is_alloc hstep
        obtain ⟨off, r, -, -, -, hmem, hcuts⟩ := cloneStep_first hq hready howed hstep
        refine ⟨hcuts w hmem, by simp, fun op' hop t ht => Or.inl ?_⟩
        cases hop
        exact hcuts t ht
  · rw [allocations_append] at hle
    obtain ⟨off, allocated, rfl, hlen, hq1, hlogged⟩ :=
      clonePass_logged hq hready howed done hnil (by omega) hdone
    refine ⟨hlogged.reclaims, hlogged.fresh, fun op hop t ht => Or.inl ?_⟩
    cases rest with
    | nil => cases hop
    | cons op' rest =>
        cases hop
        obtain ⟨log1, log2, h1, hstep, -⟩ := clonePass_prefix hrun
        rw [hdone] at h1
        cases h1
        have hroom : allocations (op :: rest) = allocations [op] + allocations rest :=
          allocations_append [op] rest
        obtain ⟨-, -, -, -, -, hcuts⟩ := cloneStep_logged hq1 hlogged (by omega) hstep
        exact hcuts t ht

/-- Past `n` allocations there is an allocation with exactly `n` before it. -/
theorem split_at_allocation (n : Nat) (ops : List CloneStep) (h : n < allocations ops) :
    ∃ xs size ys, ops = xs ++ .alloc size :: ys ∧ allocations xs = n := by
  induction ops generalizing n with
  | nil => exact absurd h (Nat.not_lt_zero n)
  | cons op ops ih =>
      have hcons : allocations (op :: ops) = allocations [op] + allocations ops :=
        allocations_append [op] ops
      cases op with
      | fill i pos data =>
          have hfill : allocations [.fill i pos data] = 0 := rfl
          obtain ⟨xs, size, ys, rfl, hxs⟩ := ih n (by omega)
          exact ⟨.fill i pos data :: xs, size, ys, rfl, (allocations_append [_] xs).trans (by omega)⟩
      | alloc size =>
          have halloc : allocations [.alloc size] = 1 := rfl
          cases n with
          | zero => exact ⟨[], size, ops, rfl, rfl⟩
          | succ n =>
              obtain ⟨xs, size', ys, rfl, hxs⟩ := ih n (by omega)
              exact ⟨.alloc size :: xs, size', ys, rfl, (allocations_append [_] xs).trans (by omega)⟩

/-- A recovery that frees nothing, whatever files are attached, finds nothing owed. -/
theorem owed_of_reclaims_nothing (hready : WalReady a slot (w.files a.stack))
    (h : Reclaims a w []) : owed (w.files a.stack) slot = [] := by
  cases hready with
  | absent hno => exact hno.owed_eq
  | block hat _ =>
      have hu := World.reopened_restart w (fun _ => some a) []
      obtain ⟨n, hn, hfreed⟩ := h _ hu
      rw [finish_reopened hu] at hn hfreed
      have hlen := heldFinish_frees (w := (w.restart (fun _ => some a) []).lock a.stack) hu.quiet
        (by rw [World.files_lock, hu.files]; exact hat) rfl hn
      simp only [World.freed_unlock] at hfreed
      rw [hfreed, World.freed_lock, hu.freed] at hlen
      rw [hat.owed_eq]
      exact List.length_eq_zero_iff.mp (by simpa using hlen)

theorem fits_of_reclaimable (hq : w.Quiet) (hready : WalReady a slot (w.files a.stack))
    {ops : List CloneStep} {log : CloneLog} (hrun : (clonePass a ops w).out = .ok log)
    (h : CrashReclaimable a ops w) :
    owed (w.files a.stack) slot = [] ∧ allocations ops ≤ firstSlots (w.files a.stack) slot := by
  have howed := owed_of_reclaims_nothing hready (h [] ops _ rfl rfl).1
  refine ⟨howed, Nat.not_lt.mp fun hlt => ?_⟩
  have hpos := hready.firstSlots_pos
  obtain ⟨xs, size, ys, rfl, hxs⟩ := split_at_allocation _ ops hlt
  obtain ⟨log1, log2, h1, hstep, -⟩ := clonePass_prefix hrun
  have hne : xs ≠ [] := by
    rintro rfl
    rw [← hxs] at hpos
    exact Nat.lt_irrefl 0 hpos
  obtain ⟨off, allocated, rfl, hlen, hq1, hlogged⟩ :=
    clonePass_logged hq hready howed xs hne (Nat.le_of_eq hxs) h1
  obtain ⟨t, ht, hnone⟩ := cloneStep_grow hq1 hlogged (by omega) hstep
  obtain ⟨r, -, _, -, -, -, hlog2, -⟩ := cloneStep_alloc_inv hq1 hready.anchor hstep
  have hnonempty : allocated ≠ [] := by
    intro hnil
    rw [hnil] at hlen
    rw [List.length_nil] at hlen
    omega
  rcases (h xs _ _ rfl h1).2.2 (.alloc size) rfl t ht with hr | ⟨log', hlog', hr⟩
  · exact hnonempty (hnone _ hr)
  · rw [hstep] at hlog'
    cases hlog'
    have := hnone _ hr
    rw [hlog2] at this
    simp at this

/-- A pass keeps its one-block window exactly when the log owes nothing at its start and every
allocation finds a slot in the first block. -/
theorem clonePass_crash_reclaimable_iff (hq : w.Quiet) (hready : WalReady a slot (w.files a.stack))
    {ops : List CloneStep} {log : CloneLog} (hrun : (clonePass a ops w).out = .ok log)
    (hpos : 0 < allocations ops) :
    CrashReclaimable a ops w ↔
      owed (w.files a.stack) slot = [] ∧ allocations ops ≤ firstSlots (w.files a.stack) slot :=
  ⟨fits_of_reclaimable hq hready hrun, fun h => reclaimable_of_fits hq hready hrun hpos h.1 h.2⟩

end Pass

theorem noLog_blank (k slot : Nat) (a : Allocator) (picks : List Nat)
    (hanchor : a.walAnchor = some slot) (hres : slot + 8 ≤ 16) :
    NoLog a slot ((World.blank picks).files k) :=
  ⟨hanchor, hres, Nat.le_refl _, Mem.word_zero slot⟩

theorem World.quiet_blank (picks : List Nat) : (World.blank picks).Quiet := rfl

/-- A clone of one block on a file just created. -/
theorem clonePass_crash_reclaimable_iff_one :
    CrashReclaimable (firstFit 0) [.alloc 32] (.blank [1000, 2000]) ↔
      owed ((World.blank [1000, 2000]).files (firstFit 0).stack) STD_WAL_ANCHOR = [] ∧
        allocations [.alloc 32] ≤
          firstSlots ((World.blank [1000, 2000]).files (firstFit 0).stack) STD_WAL_ANCHOR := by
  have hrun : (clonePass (firstFit 0) [.alloc 32] (.blank [1000, 2000])).out =
      .ok ⟨some ⟨2000, 8, 1⟩, [⟨1000, 32⟩]⟩ := by
    decide +kernel
  exact clonePass_crash_reclaimable_iff (World.quiet_blank _)
    (WalReady.absent (noLog_blank _ _ (firstFit 0) _ rfl (by decide))) hrun (by decide)

def nineBlocks : List CloneStep := List.replicate 9 (.alloc 32)

def nineBlocksWorld : World := .blank [1000, 2000, 1100, 1200, 1300, 1400, 1500, 1600, 1700, 1800, 3000]

theorem nineBlocks_not_crash_reclaimable :
    (clonePass (firstFit 0) nineBlocks nineBlocksWorld).out =
        .ok ⟨some ⟨3000, 16, 9⟩, [1000, 1100, 1200, 1300, 1400, 1500, 1600, 1700, 1800].map (⟨·, 32⟩)⟩ ∧
      ¬ CrashReclaimable (firstFit 0) nineBlocks nineBlocksWorld := by
  have hready : WalReady (firstFit 0) STD_WAL_ANCHOR (nineBlocksWorld.files (firstFit 0).stack) :=
    WalReady.absent (noLog_blank _ _ (firstFit 0) _ rfl (by decide))
  have hrun : (clonePass (firstFit 0) nineBlocks nineBlocksWorld).out =
      .ok ⟨some ⟨3000, 16, 9⟩, [1000, 1100, 1200, 1300, 1400, 1500, 1600, 1700, 1800].map (⟨·, 32⟩)⟩ := by
    decide +kernel
  refine ⟨hrun, fun h => ?_⟩
  have hslots : firstSlots (nineBlocksWorld.files (firstFit 0).stack) STD_WAL_ANCHOR = 8 := by
    decide +kernel
  obtain ⟨-, hle⟩ := fits_of_reclaimable (w := nineBlocksWorld) (World.quiet_blank _) hready hrun h
  rw [hslots] at hle
  exact absurd hle (by decide)

end BStackRaii
