import BStackRaii.Proof.Wal.Commit
/-!
# A batch of frees that nothing interrupts

`commit_frees` of blocks of one file frees each of them once, as soon as the allocator can hold the log they are
staged in, and changes no block but the log's. `CanCommit` says when it can do so once, `Batches` when again and
again.
-/

namespace BStackRaii

variable {a : Allocator} {w : World} {slot off cap p c : Nat} {status : UInt8} {entries : List WalEntry}

/-! ### Staging succeeds -/

theorem granted_ne {k : Nat} {r : Range} (h : (w.files k).Admits r) : w.grant k r h ≠ w := by
  intro heq
  have hlive : ((w.grant k r h).files k).live = (w.files k).live := by rw [heq]
  rw [World.files_grant_same, File.live_allocAt] at hlive
  exact List.cons_ne_self r _ hlive

theorem grant_mem_cuts {needed : Nat} {old : Option Range} {ps : List Nat} (hq : w.Quiet)
    (hp : w.picks = p :: ps)
    (h : (w.files a.stack).Admits (WalBlock.at p (HeldLock.freshCapacity needed)).range) :
    w.grant a.stack _ h ∈ (HeldLock.createBlock a slot needed old w).cuts := by
  have hrun := alloc_run hq hp h
  rw [HeldLock.createBlock]
  refine Prog.cuts_bind_right (congrArg Run.out hrun) ?_
  rw [hrun]
  refine Prog.cuts_bind_left ?_
  rw [HeldLock.initBlock]
  exact Prog.cuts_bind_left List.mem_cons_self

theorem stage_fresh {slices : List (Nat × Range)} {ps : List Nat} (hq : w.Quiet)
    (hno : NoLog a slot (w.files a.stack)) (hp : w.picks = p :: ps)
    (h : (w.files a.stack).Admits (WalBlock.at p (HeldLock.freshCapacity slices.length)).range) :
    ∃ p c, ∃ h : (w.files a.stack).Admits (WalBlock.at p c).range,
      c = HeldLock.freshCapacity slices.length ∧ ∃ cs, stageFrees a slices w =
        ⟨.ok (WalBlock.at p c), (linked w a.stack slot p c h).store a.stack p
          (blockImage (freeEntries slices) .pending c), cs⟩ := by
  have hlen : (freeEntries slices).length = slices.length := by simp [freeEntries]
  change ∃ p c, ∃ h : (w.files a.stack).Admits (WalBlock.at p c).range,
    c = HeldLock.freshCapacity slices.length ∧ ∃ cs,
      HeldLock.persist a (freeEntries slices) .pending w = _
  rw [← hlen] at h ⊢
  rcases persist_noLog_cases (freeEntries slices) .pending hq hno with
    ⟨e, w', hrun, -⟩ | ⟨p', c', h', hc', hrun⟩
  · have hmem : w.grant a.stack _ h ∈ (HeldLock.persist a (freeEntries slices) .pending w).cuts := by
      rw [HeldLock.persist]
      refine Prog.cuts_bind_left ?_
      simp only [HeldLock.ensureBlock, hno.anchor]
      exact Prog.cuts_bind_right (congrArg Run.out (existingBlock_noLog hq hno _))
        (by rw [existingBlock_noLog hq hno]; exact grant_mem_cuts hq hp h)
    rw [hrun] at hmem
    exact absurd (List.mem_singleton.mp hmem) (granted_ne h)
  · exact ⟨p', c', h', hc', _, hrun⟩

theorem stage_fits {slices : List (Nat × Range)} (hq : w.Quiet)
    (hat : LogAt a slot off status cap entries (w.files a.stack)) (hmax : cap ≤ WAL_MAX_CAP)
    (hle : slices.length ≤ cap) :
    stageFrees a slices w = ⟨.ok (WalBlock.at off cap),
      w.store a.stack off (blockImage (freeEntries slices) .pending cap), [w]⟩ := by
  have hlen : (freeEntries slices).length = slices.length := by simp [freeEntries]
  have hexist := existingBlock_logAt hq hat slices.length
  rw [if_neg (by omega), if_pos hle] at hexist
  change HeldLock.persist a (freeEntries slices) .pending w = _
  have hblock : HeldLock.ensureBlock a (freeEntries slices).length w
      = ⟨.ok (WalBlock.at off cap), w, []⟩ := by
    simp only [HeldLock.ensureBlock, hat.anchor]
    rw [hlen, Prog.bind_of_ok hexist]
    rfl
  have himage := set_image_run .pending hq hat.live (hlen.trans_le hle)
  rw [HeldLock.persist, Prog.bind_of_ok hblock, WalBlock.at_start, WalBlock.at_capacity,
    Prog.bind_of_ok himage]
  rfl

theorem stage_grown {slices : List (Nat × Range)} {ps : List Nat} (hq : w.Quiet)
    (hat : LogAt a slot off status cap entries (w.files a.stack)) (hmax : cap ≤ WAL_MAX_CAP)
    (hfull : cap < slices.length) (hp : w.picks = p :: ps)
    (h : (w.files a.stack).Admits (WalBlock.at p (HeldLock.freshCapacity slices.length)).range) :
    ∃ p c, ∃ h : (w.files a.stack).Admits (WalBlock.at p c).range,
      c = HeldLock.freshCapacity slices.length ∧ ∃ cs, stageFrees a slices w =
        ⟨.ok (WalBlock.at p c), (replaced w a.stack slot p c h (some (WalBlock.at off cap).range)).store
          a.stack p (blockImage (freeEntries slices) .pending c), cs⟩ := by
  have hlen : (freeEntries slices).length = slices.length := by simp [freeEntries]
  change ∃ p c, ∃ h : (w.files a.stack).Admits (WalBlock.at p c).range,
    c = HeldLock.freshCapacity slices.length ∧ ∃ cs,
      HeldLock.persist a (freeEntries slices) .pending w = _
  rw [← hlen] at h hfull ⊢
  rcases persist_logAt_cases (freeEntries slices) .pending hq hat with
    ⟨e, w', cs, hrun, hcs, -⟩ | ⟨-, hfit, -⟩ | ⟨-, -, p', c', h', hc', hrun⟩
  · have hexist := existingBlock_logAt hq hat (freeEntries slices).length
    rw [if_neg (by omega), if_neg (by omega)] at hexist
    have hmem : w.grant a.stack _ h ∈ (HeldLock.persist a (freeEntries slices) .pending w).cuts := by
      rw [HeldLock.persist]
      refine Prog.cuts_bind_left ?_
      simp only [HeldLock.ensureBlock, hat.anchor]
      exact Prog.cuts_bind_right (congrArg Run.out hexist)
        (by rw [hexist]; exact grant_mem_cuts hq hp h)
    rw [hrun] at hmem
    exact absurd (hcs _ hmem) (granted_ne h)
  · omega
  · exact ⟨p', c', h', hc', _, hrun⟩

/-! ### Frees that stay off what is seen -/

/-- What the frees of `rs` in file `k` leave of a process, for whoever looks at the blocks `seen`. -/
structure Cleared (k : Nat) (rs : List Range) (seen : Range → Prop) (w w' : World) : Prop where
  faults : w'.faults = w.faults
  held : w'.held = w.held
  picks : w'.picks = w.picks
  attached : w'.attached = w.attached
  others : ∀ j, j ≠ k → w'.files j = w.files j
  len : (w'.files k).len = (w.files k).len
  live : ∀ r, r ∈ (w'.files k).live ↔ r ∈ (w.files k).live ∧ r ∉ rs
  bytes : ∀ r, seen r → ∀ i, r.start ≤ i → i < r.stop → (w'.files k).bytes i = (w.files k).bytes i
  freed : w'.freed = w.freed ++ rs.map fun r => (k, r)

namespace Cleared

variable {k pos : Nat} {rs rs' : List Range} {seen : Range → Prop} {v w' : World} {data : List UInt8}

theorem refl : Cleared k [] seen w w :=
  ⟨rfl, rfl, rfl, rfl, fun _ _ => rfl, rfl, fun _ => by simp, fun _ _ _ _ _ => rfl, by simp⟩

theorem store (hoff : ∀ r, seen r → r.stop ≤ pos ∨ pos + data.length ≤ r.start) :
    Cleared k [] seen w (w.store k pos data) where
  faults := rfl
  held := rfl
  picks := rfl
  attached := rfl
  others _ hj := World.files_store_ne hj
  len := by rw [World.files_store_same, File.len_write]
  live r := by simp
  bytes r hr i hlo hhi := by
    rw [World.files_store_same, File.bytes_write]
    rcases hoff r hr with hoff | hoff
    · exact Mem.write_of_lt (by omega)
    · exact Mem.write_of_ge (by omega)
  freed := by simp

theorem release (r : Range) : Cleared k [r] seen w (w.release k r) where
  faults := rfl
  held := rfl
  picks := rfl
  attached := rfl
  others _ hj := World.files_release_ne hj
  len := by rw [World.files_release_same, File.len_free]
  live s := by
    rw [World.files_release_same, File.live_free, (w.files k).nodup_live.mem_erase_iff, List.mem_singleton]
    exact and_comm
  bytes _ _ _ _ _ := by rw [World.files_release_same, File.bytes_free]
  freed := rfl

theorem trans (h : Cleared k rs seen w v) (h' : Cleared k rs' seen v w') : Cleared k (rs ++ rs') seen w w' where
  faults := h'.faults.trans h.faults
  held := h'.held.trans h.held
  picks := h'.picks.trans h.picks
  attached := h'.attached.trans h.attached
  others j hj := (h'.others j hj).trans (h.others j hj)
  len := h'.len.trans h.len
  live r := by
    rw [h'.live, h.live, List.mem_append]
    tauto
  bytes r hr i hlo hhi := (h'.bytes r hr i hlo hhi).trans (h.bytes r hr i hlo hhi)
  freed := by rw [h'.freed, h.freed, List.append_assoc, List.map_append]

theorem quiet (h : Cleared k rs seen w w') (hq : w.Quiet) : w'.Quiet := h.faults.trans hq

theorem mono {seen' : Range → Prop} (hseen : ∀ r, seen' r → seen r) (h : Cleared k rs seen w w') :
    Cleared k rs seen' w w' :=
  { h with bytes := fun r hr => h.bytes r (hseen r hr) }

theorem unlock (h : Cleared k rs seen (w.lock k) w') : Cleared k rs seen w (w'.unlock k) :=
  have hheld : w'.held.erase k = w.held := by
    rw [h.held]
    exact List.erase_cons_head (k : Nat) w.held
  { h with held := hheld }

end Cleared

theorem freeAll_clears (seen : Range → Prop) {rs : List Range} : ∀ {w : World}, rs.Nodup →
    (∀ r ∈ rs, r ∈ (w.files a.stack).live) → ∃ w', freeAll a rs w = some w' ∧ Cleared a.stack rs seen w w' := by
  induction rs with
  | nil => exact fun _ _ => ⟨_, rfl, .refl⟩
  | cons r rs ih =>
      intro w hnodup hlive
      obtain ⟨hnot, hnodup⟩ := List.nodup_cons.mp hnodup
      have hfree : Cleared a.stack [r] seen w (w.release a.stack r) := .release r
      obtain ⟨w', hrun, hcleared⟩ := ih (w := w.release a.stack r) hnodup fun x hx => by
        rw [hfree.live, List.mem_singleton]
        exact ⟨hlive x (List.mem_cons_of_mem _ hx), fun heq => hnot (heq ▸ hx)⟩
      refine ⟨w', ?_, hfree.trans hcleared⟩
      rw [freeAll, if_pos (World.Takes.of_live (hlive r List.mem_cons_self)), hrun]

/-! ### The commit behind a staging -/

/-- Recovery finds the file of `a` again by the tag of its frees. -/
structure Served (a : Allocator) (w : World) : Prop where
  fits : a.walFileId < 2 ^ 32
  host : ∃ host, HeldLock.resolve w a a.walFileId = some host ∧ host.stack = a.stack

theorem Served.home (h : a.walFileId = FileId.SELF) : Served a w :=
  ⟨h ▸ by decide, a, if_pos h, rfl⟩

theorem Served.congr {w' : World} (hattached : w'.attached = w.attached) (h : Served a w) : Served a w' := by
  obtain ⟨hfits, host, hhost, hstack⟩ := h
  refine ⟨hfits, host, ?_, hstack⟩
  rw [HeldLock.resolve, hattached]
  exact hhost

theorem Served.freeRecorded_run {r : Range} (h : Served a w) (hq : w.Quiet) (hr : r ∈ (w.files a.stack).live) :
    HeldLock.freeRecorded a a.walFileId r w = ⟨.ok (), w.release a.stack r, [w]⟩ := by
  obtain ⟨host, hhost, hstack⟩ := h.host
  simp only [HeldLock.freeRecorded, hhost]
  rw [← hstack] at hr ⊢
  exact deallocRange_run hq hr

def batchOf (a : Allocator) (rs : List Range) : List (Nat × Range) := rs.map fun r => (a.walFileId, r)

@[simp] theorem length_batchOf (rs : List Range) : (batchOf a rs).length = rs.length := List.length_map _

/-- The blocks apart from the log's. -/
def OffLog (off cap : Nat) (r : Range) : Prop := r.Apart (WalBlock.at off cap).range

theorem OffLog.outside {r : Range} {pos n : Nat} (h : OffLog off cap r) (hlo : off ≤ pos)
    (hhi : pos + n ≤ off + WAL_HEADER_SIZE + cap * WAL_ENTRY_SIZE) : r.stop ≤ pos ∨ pos + n ≤ r.start := by
  obtain ⟨-, hap⟩ := h
  rw [WalBlock.at_stop, WalBlock.at_start] at hap
  omega

theorem OffLog.write {r : Range} {f : File} {pos : Nat} {data : List UInt8} (h : OffLog off cap r)
    (hat : LogAt a slot off status cap entries f) (hge : 16 ≤ pos) (hlo : r.start ≤ pos)
    (hhi : pos + data.length ≤ r.stop) : LogAt a slot off status cap entries (f.write pos data) := by
  obtain ⟨-, hap⟩ := h
  have hslots := hat.entries_le
  rw [WalBlock.at_stop, WalBlock.at_start] at hap
  refine ⟨hat.anchor, hat.reserved, ?_, hat.live, hat.holds.write_outside (by omega)⟩
  rw [File.bytes_write, word_write_reserved _ hat.reserved hge]
  exact hat.points

/-- The recovery loop over staged frees runs each of them. -/
theorem finishEntries_clears {rs : List Range} : ∀ {w : World} (pre : List WalEntry) (n : Nat), w.Quiet →
    Served a w → LogAt a slot off status cap (pre ++ freeEntries (batchOf a rs)) (w.files a.stack) → rs.Nodup →
    (∀ r ∈ rs, r ∈ (w.files a.stack).live ∧ r ≠ (WalBlock.at off cap).range) →
    ∃ w' cs entries, HeldLock.finishEntries a true (off + WAL_HEADER_SIZE) pre.length (freeEntries (batchOf a rs)) n w =
        ⟨.ok (n + rs.length), w', cs⟩ ∧ Cleared a.stack rs (OffLog off cap) w w' ∧
      LogAt a slot off status cap entries (w'.files a.stack) := by
  induction rs with
  | nil => exact fun _ _ _ _ hat _ _ => ⟨_, _, _, rfl, .refl, hat⟩
  | cons r rs ih =>
      intro w pre n hq hserved hat hnodup hlive
      obtain ⟨hnot, hnodup⟩ := List.nodup_cons.mp hnodup
      obtain ⟨⟨hr, hne⟩, hrest⟩ := List.forall_mem_cons.mp hlive
      have hentries : freeEntries (batchOf a (r :: rs)) =
        .deallocIn .pending a.walFileId r :: freeEntries (batchOf a rs) := rfl
      rw [hentries] at hat ⊢
      have horphan : HeldLock.orphan true (.deallocIn .pending a.walFileId r) = some r := rfl
      have hstop := hat.stop_le
      have hslots := hat.entries_le
      have hslot : pre.length * WAL_ENTRY_SIZE + WAL_ENTRY_SIZE ≤
          (pre ++ .deallocIn .pending a.walFileId r :: freeEntries (batchOf a rs)).length * WAL_ENTRY_SIZE := by
        rw [← Nat.succ_mul]
        refine Nat.mul_le_mul_right _ ?_
        simp only [List.length_append, List.length_cons]
        omega
      have hsize : 1 ≤ WAL_ENTRY_SIZE := by decide
      have hset := set_run a.stack (off + WAL_HEADER_SIZE + pre.length * WAL_ENTRY_SIZE) [WalStatus.complete.toU8] hq
        (by simp only [List.length_singleton]; omega)
      have hmark := hat.mark (i := pre.length) (by simp)
      have hmarked : Cleared a.stack [] (OffLog off cap) w (w.store a.stack
          (off + WAL_HEADER_SIZE + pre.length * WAL_ENTRY_SIZE) [WalStatus.complete.toU8]) :=
        .store fun s hs => hs.outside (by omega) (by simp only [List.length_singleton]; omega)
      rw [← World.files_store_same] at hmark
      generalize w.store a.stack (off + WAL_HEADER_SIZE + pre.length * WAL_ENTRY_SIZE)
        [WalStatus.complete.toU8] = v at hset hmark hmarked
      have hfree := (hserved.congr hmarked.attached).freeRecorded_run (hmarked.quiet hq)
        ((hmarked.live r).mpr ⟨hr, List.not_mem_nil⟩)
      have hfreed : Cleared a.stack [r] (OffLog off cap) w (v.release a.stack r) := hmarked.trans (.release r)
      have hlog := hmark.free hne
      rw [← World.files_release_same] at hlog
      obtain ⟨w', cs, entries, hrun, hcleared, hat'⟩ := ih (w := v.release a.stack r)
        (pre ++ [HoldsWal.marked (.deallocIn .pending a.walFileId r)]) (n + 1) (hfreed.quiet hq)
        (hserved.congr hfreed.attached) (by simpa using hlog) hnodup fun s hs => by
          refine ⟨(hfreed.live s).mpr ⟨(hrest s hs).1, ?_⟩, (hrest s hs).2⟩
          rw [List.mem_singleton]
          exact fun heq => hnot (heq ▸ hs)
      refine ⟨w', w :: v :: cs, entries, ?_, hfreed.trans hcleared, hat'⟩
      rw [List.length_append, List.length_singleton] at hrun
      simp only [HeldLock.finishEntries, horphan]
      rw [Prog.bind_of_ok hset, show (WalEntry.deallocIn .pending a.walFileId r).fileId = a.walFileId from rfl,
        Prog.bind_of_ok hfree, hrun, List.length_cons, Nat.add_assoc, Nat.add_comm 1]
      rfl

/-- Flip the staged frees, and run them. -/
theorem commitStaged_run {rs : List Range} (hq : w.Quiet) (hseq : a.atomicBulk = false) (hserved : Served a w)
    (hat : LogAt a slot off status cap entries (w.files a.stack)) (hmax : cap ≤ WAL_MAX_CAP)
    (hle : rs.length ≤ cap) (hnodup : rs.Nodup)
    (hlive : ∀ r ∈ rs, r ∈ (w.files a.stack).live ∧ r ≠ (WalBlock.at off cap).range) :
    ∃ w' cs entries, commitStaged a (WalBlock.at off cap) (w.store a.stack off
        (blockImage (freeEntries (batchOf a rs)) .pending cap)) = ⟨.ok (), w', cs⟩ ∧
      Cleared a.stack rs (OffLog off cap) w w' ∧
      LogAt a slot off WalStatus.none.toU8 cap entries (w'.files a.stack) := by
  have hfits : ∀ e ∈ freeEntries (batchOf a rs), e.Fits := by
    intro e he
    obtain ⟨q, hq', rfl⟩ := List.mem_map.mp he
    obtain ⟨r, hr, rfl⟩ := List.mem_map.mp hq'
    have hstop := ((w.files a.stack).inside r (hlive r hr).1).2
    have haddr := (w.files a.stack).addressable
    rw [Range.stop] at hstop
    exact ⟨hserved.fits, by simp only [WalEntry.deallocIn]; omega, by simp only [WalEntry.deallocIn]; omega⟩
  have hlen : (freeEntries (batchOf a rs)).length = rs.length := by simp [freeEntries]
  have hstop := hat.stop_le
  have hslots : rs.length * WAL_ENTRY_SIZE ≤ cap * WAL_ENTRY_SIZE := Nat.mul_le_mul_right _ hle
  have himage := hat.image .pending hfits (by rwa [hlen])
  have hstaged : Cleared a.stack [] (OffLog off cap) w (w.store a.stack off
      (blockImage (freeEntries (batchOf a rs)) .pending cap)) := by
    refine .store fun s hs => hs.outside (Nat.le_refl _) ?_
    rw [blockImage, List.length_append, WalHeader.length_encode,
      length_records WalEntry.encode WalEntry.length_encode, hlen]
    omega
  rw [← World.files_store_same] at himage
  generalize w.store a.stack off (blockImage (freeEntries (batchOf a rs)) .pending cap) = v at himage hstaged ⊢
  have hbyte : ∀ s : WalStatus, off + WAL_STATUS_OFFSET + [s.toU8].length ≤
      off + WAL_HEADER_SIZE + cap * WAL_ENTRY_SIZE := by
    intro s
    simp only [List.length_singleton, WAL_STATUS_OFFSET, WAL_HEADER_SIZE]
    omega
  have hstatus : ∀ (u : World) (s : WalStatus), Cleared a.stack [] (OffLog off cap) u
      (u.store a.stack (off + WAL_STATUS_OFFSET) [s.toU8]) := fun u s =>
    .store fun r hr => hr.outside (Nat.le_add_right _ _) (hbyte s)
  -- the flip
  have hset := set_run (w := v) a.stack (off + WAL_STATUS_OFFSET) [WalStatus.complete.toU8] (hstaged.quiet hq)
    (by rw [hstaged.len]; exact (hbyte _).trans hstop)
  have hflip := himage.set_status WalStatus.complete.toU8
  have hflipped := hstaged.trans (hstatus v .complete)
  rw [← World.files_store_same] at hflip
  generalize v.store a.stack (off + WAL_STATUS_OFFSET) [WalStatus.complete.toU8] = u at hset hflip hflipped
  -- the frees
  obtain ⟨u', cs, entries, hrun, hcleared, hat'⟩ := finishEntries_clears [] 0 (hflipped.quiet hq)
    (hserved.congr hflipped.attached) hflip hnodup fun r hr =>
      ⟨(hflipped.live r).mpr ⟨(hlive r hr).1, List.not_mem_nil⟩, (hlive r hr).2⟩
  rw [List.length_nil] at hrun
  have hcleared := hflipped.trans hcleared
  have hidle := set_run (w := u') a.stack (off + WAL_STATUS_OFFSET) [WalStatus.none.toU8] (hcleared.quiet hq)
    (by rw [hcleared.len]; exact (hbyte _).trans hstop)
  have hat'' := hat'.set_status WalStatus.none.toU8
  rw [← World.files_store_same] at hat''
  have hfinish : ∃ cs', HeldLock.finish a u = ⟨.ok (0 + rs.length),
      u'.store a.stack (off + WAL_STATUS_OFFSET) [WalStatus.none.toU8], cs'⟩ := by
    rw [HeldLock.finish, Prog.bind_of_ok (load_logAt (hflipped.quiet hq) hflip hmax)]
    change ∃ cs', (HeldLock.reclaim a true (off + WAL_HEADER_SIZE) (freeEntries (batchOf a rs)) >>= fun completed =>
      HeldLock.setIdle a off >>= fun _ => pure completed) u = ⟨_, _, cs'⟩
    rw [HeldLock.reclaim, hseq]
    simp only [Bool.false_eq_true, if_false]
    rw [Prog.bind_of_ok hrun, HeldLock.setIdle, Prog.bind_of_ok hidle]
    exact ⟨_, rfl⟩
  obtain ⟨cs', hfinish⟩ := hfinish
  have hcommit : ∃ cs, commitStaged a (WalBlock.at off cap) v = ⟨.ok (),
      u'.store a.stack (off + WAL_STATUS_OFFSET) [WalStatus.none.toU8], cs⟩ := by
    rw [commitStaged, HeldLock.markComplete, WalBlock.at_start, Prog.bind_of_ok hset, Prog.bind_of_ok hfinish]
    exact ⟨_, rfl⟩
  obtain ⟨cs, hcommit⟩ := hcommit
  exact ⟨_, cs, entries, hcommit, by simpa using hcleared.trans (hstatus u' .none), hat''⟩

/-! ### The whole commit -/

/-- The allocator can commit a batch of `n` frees among the blocks `uses`: it frees as it goes, its bulk frees
are atomic, or its log can hold them. -/
inductive CanCommit (a : Allocator) (n : Nat) (uses : Range → Prop) (w : World) : Prop
  | eager (hanchor : a.walAnchor = none)
  | bulk {slot : Nat} (hanchor : a.walAnchor = some slot) (hbulk : a.atomicBulk = true)
  | fresh {slot p : Nat} {ps : List Nat} (hseq : a.atomicBulk = false) (hfree : a.stack ∉ w.held)
      (hmax : n ≤ WAL_MAX_CAP) (hno : NoLog a slot (w.files a.stack)) (hp : w.picks = p :: ps)
      (h : (w.files a.stack).Admits (WalBlock.at p (HeldLock.freshCapacity n)).range)
  | fits {slot off cap : Nat} {status : UInt8} {entries : List WalEntry} (hseq : a.atomicBulk = false)
      (hfree : a.stack ∉ w.held) (hmax : cap ≤ WAL_MAX_CAP)
      (hat : LogAt a slot off status cap entries (w.files a.stack))
      (huses : ¬ uses (WalBlock.at off cap).range) (hle : n ≤ cap)
  | grows {slot off cap p : Nat} {status : UInt8} {entries : List WalEntry} {ps : List Nat}
      (hseq : a.atomicBulk = false) (hfree : a.stack ∉ w.held) (hmax : cap ≤ WAL_MAX_CAP)
      (hn : n ≤ WAL_MAX_CAP) (hat : LogAt a slot off status cap entries (w.files a.stack))
      (huses : ¬ uses (WalBlock.at off cap).range) (hfull : cap < n) (hp : w.picks = p :: ps)
      (h : (w.files a.stack).Admits (WalBlock.at p (HeldLock.freshCapacity n)).range)

theorem CanCommit.store {n pos : Nat} {uses : Range → Prop} {r : Range} {data : List UInt8}
    (h : CanCommit a n uses w) (hu : uses r) (hr : r ∈ (w.files a.stack).live) (hge : 16 ≤ pos) (hlo : r.start ≤ pos)
    (hhi : pos + data.length ≤ r.stop) : CanCommit a n uses (w.store a.stack pos data) := by
  have hadmits : ∀ {s}, (w.files a.stack).Admits s → ((w.store a.stack pos data).files a.stack).Admits s := by
    intro s hs
    rw [File.Admits, World.live_store]
    exact hs
  cases h with
  | eager hanchor => exact .eager hanchor
  | bulk hanchor hbulk => exact .bulk hanchor hbulk
  | fresh hseq hfree hmax hno hp h =>
      rename_i slot p ps
      have hno' : NoLog a slot ((w.store a.stack pos data).files a.stack) := by
        rw [World.files_store_same]
        exact hno.write hge
      exact .fresh hseq hfree hmax hno' hp (hadmits h)
  | fits hseq hfree hmax hat huses hle =>
      have hat' := hat.write_live hr (fun heq => huses (heq ▸ hu)) hlo hhi
      rw [← World.files_store_same] at hat'
      exact .fits hseq hfree hmax hat' huses hle
  | grows hseq hfree hmax hn hat huses hfull hp h =>
      have hat' := hat.write_live hr (fun heq => huses (heq ▸ hu)) hlo hhi
      rw [← World.files_store_same] at hat'
      exact .grows hseq hfree hmax hn hat' huses hfull hp (hadmits h)

/-- What a commit of `rs` leaves of the blocks `uses` in file `k`. It may also have freed old blocks of the log. -/
structure Committed (k : Nat) (rs log : List Range) (uses : Range → Prop) (w w' : World) : Prop where
  others : ∀ j, j ≠ k → w'.files j = w.files j
  live : ∀ r ∈ (w.files k).live, uses r → (r ∈ (w'.files k).live ↔ r ∉ rs)
  bytes : ∀ r ∈ (w.files k).live, uses r → ∀ i, r.start ≤ i → i < r.stop →
    (w'.files k).bytes i = (w.files k).bytes i
  unused : ∀ r ∈ log, ¬ uses r
  freed : w'.freed = w.freed ++ log.map (fun r => (k, r)) ++ rs.map fun r => (k, r)

theorem Cleared.committed {k : Nat} {rs : List Range} {seen uses : Range → Prop} {w' : World}
    (h : Cleared k rs seen w w') (hseen : ∀ r ∈ (w.files k).live, uses r → seen r) : Committed k rs [] uses w w' where
  others := h.others
  live r hr _ := by rw [h.live, and_iff_right hr]
  bytes r hr hu := h.bytes r (hseen r hr hu)
  unused _ hr := absurd hr List.not_mem_nil
  freed := by simpa using h.freed

theorem linked_bytes {k : Nat} (hres : slot + 8 ≤ 16) (h : (w.files k).Admits (WalBlock.at p c).range) {r : Range}
    (hr : r ∈ (w.files k).live) {i : Nat} (hlo : r.start ≤ i) (hhi : i < r.stop) :
    ((linked w k slot p c h).files k).bytes i = (w.files k).bytes i := by
  have hge := ((w.files k).inside r hr).1
  have hap := (h.2.2 r hr).2
  have hlen : (WalBlock.at p c).range.len = WAL_HEADER_SIZE + c * WAL_ENTRY_SIZE := rfl
  rw [WalBlock.at_start, WalBlock.at_stop] at hap
  have hfresh : ∀ {m : Mem} {data : List UInt8}, data.length ≤ WAL_HEADER_SIZE + c * WAL_ENTRY_SIZE →
      m.write p data i = m i := by
    intro m data hdata
    rcases hap with hap | hap
    · exact Mem.write_of_lt (by omega)
    · exact Mem.write_of_ge (by omega)
  simp only [linked, initialised, World.files_store_same, World.files_grant_same, File.bytes_write, File.bytes_allocAt,
    WalBlock.at_start]
  rw [Mem.write_of_ge (by rw [length_leBytes]; omega), hfresh (by rw [blockImage_nil, WalHeader.length_encode]; omega),
    hfresh (by rw [List.length_replicate, hlen])]

theorem commitFrees_logged {rs : List Range} {X : World} {c : Nat} {cs : List World}
    (hne : rs ≠ []) (hseq : a.atomicBulk = false) (hfree : a.stack ∉ w.held)
    (hstage : stageFrees a (batchOf a rs) (w.lock a.stack) = ⟨.ok (WalBlock.at off c), X, cs⟩)
    {w' : World} {cs' : List World}
    (hcommit : commitStaged a (WalBlock.at off c) X = ⟨.ok (), w', cs'⟩) :
    commitFrees a (batchOf a rs) w = ⟨.ok (), w'.unlock a.stack, cs ++ cs'⟩ := by
  have hnil : batchOf a rs ≠ [] := fun h => hne (List.map_eq_nil_iff.mp h)
  rw [commitFrees, if_neg hnil, if_neg (by rw [hseq]; exact fun h => Bool.false_ne_true h.1),
    withLock_run hfree, Prog.bind_of_ok hstage, hcommit]
  rfl

theorem commitFrees_bulk (seen : Range → Prop) {rs : List Range} (hq : w.Quiet) (hne : rs ≠ [])
    (hlive : ∀ r ∈ rs, r ∈ (w.files a.stack).live) (hnodup : rs.Nodup) (hbulk : a.atomicBulk = true)
    (hhome : a.walFileId = FileId.SELF) : ∃ w', commitFrees a (batchOf a rs) w = ⟨.ok (), w', [w]⟩ ∧
      Cleared a.stack rs seen w w' := by
  obtain ⟨w', hrun, hcleared⟩ := freeAll_clears (a := a) seen hnodup hlive
  have hnil : batchOf a rs ≠ [] := fun h => hne (List.map_eq_nil_iff.mp h)
  have hself : ∀ q ∈ batchOf a rs, q.1 = FileId.SELF := by
    intro q hq'
    obtain ⟨r, -, rfl⟩ := List.mem_map.mp hq'
    exact hhome
  have hsnd : (batchOf a rs).map Prod.snd = rs := by
    rw [batchOf, List.map_map, Function.comp_def, List.map_id']
  refine ⟨w', ?_, hcleared⟩
  rw [commitFrees, if_neg hnil, if_pos ⟨hbulk, hself⟩, hsnd, freeMany, if_pos hbulk]
  simp only [bulkFreeMany, Prog.durable_apply, if_neg hq.not_faulty, hq.tick_eq, hrun]

theorem commitFrees_fits {rs : List Range} (hq : w.Quiet) (hne : rs ≠ []) (hserved : Served a w)
    (hlive : ∀ r ∈ rs, r ∈ (w.files a.stack).live ∧ r ≠ (WalBlock.at off cap).range) (hnodup : rs.Nodup)
    (hseq : a.atomicBulk = false) (hfree : a.stack ∉ w.held) (hmax : cap ≤ WAL_MAX_CAP)
    (hat : LogAt a slot off status cap entries (w.files a.stack)) (hle : rs.length ≤ cap) :
    ∃ w' cs entries, commitFrees a (batchOf a rs) w = ⟨.ok (), w', cs⟩ ∧ Cleared a.stack rs (OffLog off cap) w w' ∧
      LogAt a slot off WalStatus.none.toU8 cap entries (w'.files a.stack) := by
  have hq' : (w.lock a.stack).Quiet := hq
  have hstage := stage_fits hq' hat hmax ((length_batchOf (a := a) rs).trans_le hle)
  obtain ⟨w', cs', entries, hcommit, hcleared, hat'⟩ := commitStaged_run hq' hseq ⟨hserved.fits, hserved.host⟩ hat hmax
    hle hnodup hlive
  exact ⟨_, _, entries, commitFrees_logged hne hseq hfree hstage hcommit, hcleared.unlock, hat'⟩

theorem commitFrees_run {rs : List Range} {uses : Range → Prop} (hq : w.Quiet) (hne : rs ≠ [])
    (hlive : ∀ r ∈ rs, r ∈ (w.files a.stack).live) (hnodup : rs.Nodup) (huses : ∀ r ∈ rs, uses r)
    (hanchor : a.walAnchor ≠ none) (hserved : Served a w) (hhome : a.atomicBulk = true → a.walFileId = FileId.SELF)
    (hcan : CanCommit a rs.length uses w) :
    ∃ w' cs, ∃ log : List Range, commitFrees a (batchOf a rs) w = ⟨.ok (), w', cs⟩ ∧
      Committed a.stack rs log uses w w' := by
  have hlen := length_batchOf (a := a) rs
  cases hcan with
  | eager h => exact absurd h hanchor
  | bulk _ hbulk =>
      obtain ⟨w', hrun, hcleared⟩ := commitFrees_bulk uses hq hne hlive hnodup hbulk (hhome hbulk)
      exact ⟨w', [w], [], hrun, hcleared.committed fun _ _ hu => hu⟩
  | fresh hseq hfree hmax hno hp h =>
      rename_i slot p ps
      have hq' : (w.lock a.stack).Quiet := hq
      have hno' : NoLog a slot ((w.lock a.stack).files a.stack) := hno
      rw [← hlen] at h
      obtain ⟨p', c, h', hc, cs, hstage⟩ := stage_fresh hq' hno' hp h
      rw [hlen] at hc
      have hat := logAt_linked hno.anchor hno.reserved h'
      have hapart : ∀ r ∈ (w.files a.stack).live, r.Apart (WalBlock.at p' c).range := h'.2.2
      have hlinked : ∀ r ∈ (w.files a.stack).live,
          r ∈ ((linked (w.lock a.stack) a.stack slot p' c h').files a.stack).live := fun r hr => by
        rw [live_linked]
        exact List.mem_cons_of_mem _ hr
      obtain ⟨w', cs', entries, hcommit, hcleared, -⟩ := commitStaged_run
        (show (linked (w.lock a.stack) a.stack slot p' c h').Quiet from hq) hseq ⟨hserved.fits, hserved.host⟩ hat
        (hc ▸ freshCapacity_le_max hmax)
        (hc ▸ le_freshCapacity _) hnodup fun r hr => ⟨hlinked r (hlive r hr), (hapart r (hlive r hr)).1⟩
      refine ⟨_, _, [], commitFrees_logged hne hseq hfree hstage hcommit, ?_, ?_, ?_, fun r hr => (by cases hr), ?_⟩
      · intro j hj
        rw [World.files_unlock, hcleared.others j hj]
        simp only [linked, initialised, World.files_store_ne hj, World.files_grant_ne hj, World.files_lock]
      · intro r hr _
        rw [World.files_unlock, hcleared.live, and_iff_right (hlinked r hr)]
      · intro r hr _ i hlo hhi
        rw [World.files_unlock, hcleared.bytes r (hapart r hr) i hlo hhi]
        exact linked_bytes hno.reserved h' hr hlo hhi
      · simpa [linked, initialised] using hcleared.freed
  | fits hseq hfree hmax hat huses' hle =>
      have hne' : ∀ r, uses r → r ≠ (WalBlock.at _ _).range := fun r hu he => huses' (he ▸ hu)
      obtain ⟨w', cs', entries, hrun, hcleared, -⟩ := commitFrees_fits hq hne hserved
        (fun r hr => ⟨hlive r hr, hne' r (huses r hr)⟩) hnodup hseq hfree hmax hat hle
      exact ⟨w', cs', [], hrun, hcleared.committed fun r hr hu => apart_of_mem (w.files a.stack).apart hr hat.live
        (hne' r hu)⟩
  | grows hseq hfree hmax hn hat huses' hfull hp h =>
      rename_i slot off cap p status entries ps
      have hq' : (w.lock a.stack).Quiet := hq
      rw [← hlen] at h hfull
      obtain ⟨p', c, h', hc, cs, hstage⟩ := stage_grown hq' hat hmax hfull hp h
      rw [hlen] at hc
      have hold : ∀ r ∈ some (WalBlock.at off cap).range, r ∈ ((w.lock a.stack).files a.stack).live := by
        intro r hr
        cases hr
        exact hat.live
      have hat' := logAt_replaced (some (WalBlock.at off cap).range) hat.anchor hat.reserved h' hold
      have hapart : ∀ r ∈ (w.files a.stack).live, r.Apart (WalBlock.at p' c).range := h'.2.2
      have hne' : ∀ r, uses r → r ≠ (WalBlock.at off cap).range := fun r hu he => huses' (he ▸ hu)
      have hreplaced : ∀ r ∈ (w.files a.stack).live, uses r → r ∈ ((replaced (w.lock a.stack) a.stack slot p' c h'
          (some (WalBlock.at off cap).range)).files a.stack).live := fun r hr hu => by
        rw [replaced, World.files_release_same, File.live_free, live_linked]
        exact (List.mem_erase_of_ne (hne' r hu)).mpr (List.mem_cons_of_mem _ hr)
      obtain ⟨w', cs', entries, hcommit, hcleared, -⟩ := commitStaged_run
        (show (replaced (w.lock a.stack) a.stack slot p' c h' (some (WalBlock.at off cap).range)).Quiet from hq) hseq
        ⟨hserved.fits, hserved.host⟩ hat'
        (hc ▸ freshCapacity_le_max hn) (hc ▸ le_freshCapacity _) hnodup
        fun r hr => ⟨hreplaced r (hlive r hr) (huses r hr), (hapart r (hlive r hr)).1⟩
      refine ⟨_, _, [(WalBlock.at off cap).range], commitFrees_logged hne hseq hfree hstage hcommit, ?_, ?_, ?_, ?_, ?_⟩
      · intro j hj
        rw [World.files_unlock, hcleared.others j hj, replaced, World.files_release_ne hj]
        simp only [linked, initialised, World.files_store_ne hj, World.files_grant_ne hj, World.files_lock]
      · intro r hr hu
        rw [World.files_unlock, hcleared.live, and_iff_right (hreplaced r hr hu)]
      · intro r hr hu i hlo hhi
        rw [World.files_unlock, hcleared.bytes r (hapart r hr) i hlo hhi, replaced, World.files_release_same,
          File.bytes_free]
        exact linked_bytes hat.reserved h' hr hlo hhi
      · intro r hr
        rw [List.mem_singleton.mp hr]
        exact huses'
      · rw [World.freed_unlock, hcleared.freed]
        rfl

/-! ### One batch after another -/

/-- The allocator can commit one batch after another, of `n` frees at most among the blocks `uses`: it makes none,
its bulk frees are atomic, or the log that the file has is large enough. -/
inductive Batches (a : Allocator) (n : Nat) (uses : Range → Prop) (w : World) : Prop
  | eager (hanchor : a.walAnchor = none)
  | bulk (hanchor : a.walAnchor ≠ none) (hbulk : a.atomicBulk = true) (hhome : a.walFileId = FileId.SELF)
  | room {slot off cap : Nat} {status : UInt8} {entries : List WalEntry} (hseq : a.atomicBulk = false)
      (hserved : Served a w) (hfree : a.stack ∉ w.held) (hmax : cap ≤ WAL_MAX_CAP)
      (hat : LogAt a slot off status cap entries (w.files a.stack)) (hoff : ∀ r, uses r → OffLog off cap r)
      (hle : n ≤ cap)

namespace Batches

variable {n pos : Nat} {uses : Range → Prop} {r : Range} {data : List UInt8}

theorem store (h : Batches a n uses w) (hr : uses r) (hge : 16 ≤ pos) (hlo : r.start ≤ pos)
    (hhi : pos + data.length ≤ r.stop) : Batches a n uses (w.store a.stack pos data) := by
  cases h with
  | eager hanchor => exact .eager hanchor
  | bulk hanchor hbulk hhome => exact .bulk hanchor hbulk hhome
  | room hseq hserved hfree hmax hat hoff hle =>
      have hat' := (hoff r hr).write hat hge hlo hhi
      rw [← World.files_store_same] at hat'
      exact .room hseq ⟨hserved.fits, hserved.host⟩ hfree hmax hat' hoff hle

theorem release (h : Batches a n uses w) (hr : uses r) : Batches a n uses (w.release a.stack r) := by
  cases h with
  | eager hanchor => exact .eager hanchor
  | bulk hanchor hbulk hhome => exact .bulk hanchor hbulk hhome
  | room hseq hserved hfree hmax hat hoff hle =>
      have hat' := hat.free (hoff r hr).1
      rw [← World.files_release_same] at hat'
      exact .room hseq ⟨hserved.fits, hserved.host⟩ hfree hmax hat' hoff hle

/-- One batch, and the next can follow. -/
theorem commitFrees_run {rs : List Range} (h : Batches a n uses w) (hq : w.Quiet) (hanchor : a.walAnchor ≠ none)
    (hlive : ∀ r ∈ rs, r ∈ (w.files a.stack).live) (hnodup : rs.Nodup) (huses : ∀ r ∈ rs, uses r)
    (hlen : rs.length ≤ n) : ∃ w' cs, commitFrees a (batchOf a rs) w = ⟨.ok (), w', cs⟩ ∧
      Cleared a.stack rs uses w w' ∧ Batches a n uses w' := by
  by_cases hne : rs = []
  · subst hne
    exact ⟨w, [], rfl, .refl, h⟩
  cases h with
  | eager h => exact absurd h hanchor
  | bulk hanchor hbulk hhome =>
      obtain ⟨w', hrun, hcleared⟩ := commitFrees_bulk uses hq hne hlive hnodup hbulk hhome
      exact ⟨w', [w], hrun, hcleared, .bulk hanchor hbulk hhome⟩
  | room hseq hserved hfree hmax hat hoff hle =>
      obtain ⟨w', cs, entries, hrun, hcleared, hat'⟩ := commitFrees_fits hq hne hserved
        (fun r hr => ⟨hlive r hr, (hoff r (huses r hr)).1⟩) hnodup hseq hfree hmax hat (hlen.trans hle)
      exact ⟨w', cs, hrun, hcleared.mono hoff,
        .room hseq (hserved.congr hcleared.attached) (hcleared.held ▸ hfree) hmax hat' hoff hle⟩

end Batches

end BStackRaii
