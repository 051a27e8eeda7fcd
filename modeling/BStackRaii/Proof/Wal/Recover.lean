import BStackRaii.Proof.Wal.State
/-!
# What an uninterrupted recovery frees

`finish` frees exactly what the log owes, in the order of the entries, whenever the owed slices are
live blocks of the log's own file. It frees nothing when the log owes nothing.
-/

namespace BStackRaii

/-- The slices `es` orphan under the outcome, with their files. -/
def orphans (committed : Bool) (es : List WalEntry) : List (Nat × Range) :=
  es.filterMap fun e => (HeldLock.orphan committed e).map fun r => (e.fileId, r)

theorem orphans_cons_none {committed : Bool} {e : WalEntry} (es : List WalEntry)
    (h : HeldLock.orphan committed e = none) : orphans committed (e :: es) = orphans committed es := by
  simp [orphans, h]

theorem orphans_cons_some {committed : Bool} {e : WalEntry} {r : Range} (es : List WalEntry)
    (h : HeldLock.orphan committed e = some r) :
    orphans committed (e :: es) = (e.fileId, r) :: orphans committed es := by
  simp [orphans, h]

/-- The orphans of a log in its own file, live and listed once. -/
structure Reclaimable (f : File) (owedSlices : List (Nat × Range)) : Prop where
  home : ∀ p ∈ owedSlices, p.1 = FileId.SELF
  live : ∀ p ∈ owedSlices, p.2 ∈ f.live
  nodup : (owedSlices.map Prod.snd).Nodup

theorem Reclaimable.tail {f f' : File} {p : Nat × Range} {ps : List (Nat × Range)}
    (h : Reclaimable f (p :: ps)) (hf : f'.live = f.live.erase p.2) : Reclaimable f' ps := by
  have hnd := List.nodup_cons.mp h.nodup
  refine ⟨fun q hq => h.home q (List.mem_cons_of_mem _ hq), fun q hq => ?_, hnd.2⟩
  have hne : q.2 ≠ p.2 := fun he => hnd.1 (he ▸ List.mem_map_of_mem (f := Prod.snd) hq)
  rw [hf, List.mem_erase_of_ne hne]
  exact h.live q (List.mem_cons_of_mem _ hq)

theorem freeRecorded_home {a : Allocator} {w : World} {r : Range} (hq : w.Quiet)
    (h : r ∈ (w.files a.stack).live) :
    HeldLock.freeRecorded a FileId.SELF r w = ⟨.ok (), w.release a.stack r, [w]⟩ := by
  simp only [HeldLock.freeRecorded, HeldLock.resolve, if_true]
  exact deallocRange_run hq h

/-! ### The sequential loop -/

theorem finishEntries_run {a : Allocator} {committed : Bool} (base : Nat) (es : List WalEntry) :
    ∀ {w : World} (i n : Nat), w.Quiet →
      base + (i + es.length) * WAL_ENTRY_SIZE ≤ (w.files a.stack).len →
      Reclaimable (w.files a.stack) (orphans committed es) →
      ∃ w' cs, HeldLock.finishEntries a committed base i es n w =
          ⟨.ok (n + (orphans committed es).length), w', cs⟩ ∧ w'.Quiet ∧
        (w'.files a.stack).len = (w.files a.stack).len ∧
        w'.freed = w.freed ++ (orphans committed es).map fun p => (a.stack, p.2) := by
  induction es with
  | nil =>
      intro w i n hq _ _
      exact ⟨w, [], rfl, hq, rfl, by simp [orphans]⟩
  | cons e es ih =>
      intro w i n hq hlen hrec
      have hlen' : base + (i + 1 + es.length) * WAL_ENTRY_SIZE ≤ (w.files a.stack).len := by
        rw [Nat.add_assoc i 1, Nat.add_comm 1]
        exact hlen
      have hslot : i * WAL_ENTRY_SIZE + WAL_ENTRY_SIZE ≤ (i + (es.length + 1)) * WAL_ENTRY_SIZE := by
        rw [← Nat.succ_mul]
        exact Nat.mul_le_mul_right _ (by omega)
      rw [List.length_cons] at hlen
      cases ho : HeldLock.orphan committed e with
      | none =>
          rw [orphans_cons_none es ho] at hrec ⊢
          simp only [HeldLock.finishEntries, ho]
          exact ih (i + 1) n hq hlen' hrec
      | some r =>
          rw [orphans_cons_some es ho] at hrec ⊢
          have hid : e.fileId = FileId.SELF := hrec.home _ (List.mem_cons_self ..)
          have hr : r ∈ (w.files a.stack).live := hrec.live _ (List.mem_cons_self ..)
          have hset := set_run a.stack (base + i * WAL_ENTRY_SIZE) [WalStatus.complete.toU8] hq
            (by simp only [List.length_singleton, WAL_ENTRY_SIZE] at *; omega)
          generalize hw1 : w.store a.stack (base + i * WAL_ENTRY_SIZE) [WalStatus.complete.toU8] = w1
            at hset
          have hq1 : w1.Quiet := hw1 ▸ hq
          have hlive1 : (w1.files a.stack).live = (w.files a.stack).live := by simp [← hw1]
          have hlen1 : (w1.files a.stack).len = (w.files a.stack).len := by simp [← hw1]
          have hfreed1 : w1.freed = w.freed := by simp [← hw1]
          have hfree := freeRecorded_home (a := a) (r := r) hq1 (hlive1 ▸ hr)
          obtain ⟨w', cs, hrun, hq', hl', hf'⟩ := ih (w := w1.release a.stack r) (i + 1) (n + 1)
            (by simpa using hq1) (by simpa [hlen1] using hlen')
            (hrec.tail (by simp [hlive1]))
          refine ⟨w', w :: w1 :: cs, ?_, hq', by simpa [hlen1] using hl', ?_⟩
          · simp only [HeldLock.finishEntries, ho, hid]
            have hcount : n + 1 + (orphans committed es).length =
                n + ((orphans committed es).length + 1) := by omega
            rw [Prog.bind_of_ok hset, Prog.bind_of_ok hfree, hrun, hcount]
            rfl
          · simp [hf', hfreed1]

/-! ### The bulk path -/

theorem markOrphans_run {a : Allocator} {base : Nat} (committed : Bool) (es : List WalEntry) :
    ∀ {w : World} (i : Nat), w.Quiet →
      base + (i + es.length) * WAL_ENTRY_SIZE ≤ (w.files a.stack).len →
      (∀ p ∈ orphans committed es, p.1 = FileId.SELF) →
      ∃ w' cs, HeldLock.markOrphans a committed base i es w =
          ⟨.ok ((orphans committed es).map Prod.snd, []), w', cs⟩ ∧ w'.Quiet ∧
        (w'.files a.stack).len = (w.files a.stack).len ∧
        (w'.files a.stack).live = (w.files a.stack).live ∧ w'.freed = w.freed := by
  induction es with
  | nil =>
      intro w i hq _ _
      exact ⟨w, [], rfl, hq, rfl, rfl, rfl⟩
  | cons e es ih =>
      intro w i hq hlen hhome
      have hlen' : base + (i + 1 + es.length) * WAL_ENTRY_SIZE ≤ (w.files a.stack).len := by
        rw [Nat.add_assoc i 1, Nat.add_comm 1]
        exact hlen
      have hslot : i * WAL_ENTRY_SIZE + WAL_ENTRY_SIZE ≤ (i + (es.length + 1)) * WAL_ENTRY_SIZE := by
        rw [← Nat.succ_mul]
        exact Nat.mul_le_mul_right _ (by omega)
      rw [List.length_cons] at hlen
      cases ho : HeldLock.orphan committed e with
      | none =>
          rw [orphans_cons_none es ho] at hhome ⊢
          simp only [HeldLock.markOrphans, ho]
          exact ih (i + 1) hq hlen' hhome
      | some r =>
          rw [orphans_cons_some es ho] at hhome ⊢
          have hid : e.fileId = FileId.SELF := hhome _ (List.mem_cons_self ..)
          have hset := set_run a.stack (base + i * WAL_ENTRY_SIZE) [WalStatus.complete.toU8] hq
            (by simp only [List.length_singleton, WAL_ENTRY_SIZE] at *; omega)
          generalize hw1 : w.store a.stack (base + i * WAL_ENTRY_SIZE) [WalStatus.complete.toU8] = w1
            at hset
          have hq1 : w1.Quiet := hw1 ▸ hq
          have hlive1 : (w1.files a.stack).live = (w.files a.stack).live := by simp [← hw1]
          have hlen1 : (w1.files a.stack).len = (w.files a.stack).len := by simp [← hw1]
          have hfreed1 : w1.freed = w.freed := by simp [← hw1]
          obtain ⟨w', cs, hrun, hq', hl', hv', hf'⟩ := ih (w := w1) (i + 1) hq1
            (by simpa [hlen1] using hlen') fun p hp => hhome p (List.mem_cons_of_mem _ hp)
          refine ⟨w', w :: cs, ?_, hq', hl'.trans hlen1, hv'.trans hlive1, hf'.trans hfreed1⟩
          simp only [HeldLock.markOrphans, ho]
          rw [Prog.bind_of_ok hset, Prog.bind_of_ok hrun]
          simp [hid]

theorem freeAll_run {a : Allocator} (rs : List Range) : ∀ {w : World}, w.Quiet → rs.Nodup →
    (∀ r ∈ rs, r ∈ (w.files a.stack).live) →
    ∃ w', freeAll a rs w = some w' ∧ w'.Quiet ∧
      (w'.files a.stack).len = (w.files a.stack).len ∧
      w'.freed = w.freed ++ rs.map fun r => (a.stack, r) := by
  induction rs with
  | nil =>
      intro w hq _ _
      exact ⟨w, rfl, hq, rfl, by simp⟩
  | cons r rs ih =>
      intro w hq hnd hlive
      have hr := hlive r (List.mem_cons_self ..)
      obtain ⟨hnot, hnd'⟩ := List.nodup_cons.mp hnd
      obtain ⟨w', hrun, hq', hl', hf'⟩ := ih (w := w.release a.stack r) (by simpa using hq) hnd'
        fun x hx => by
          have hne : x ≠ r := fun he => hnot (he ▸ hx)
          rw [World.files_release_same, File.live_free, List.mem_erase_of_ne hne]
          exact hlive x (List.mem_cons_of_mem _ hx)
      refine ⟨w', ?_, hq', by simpa using hl', by simp [hf']⟩
      rw [freeAll, if_pos (World.Takes.of_live hr), hrun]

theorem bulkFreeMany_run {a : Allocator} {rs : List Range} {w : World} (hq : w.Quiet)
    (hnd : rs.Nodup) (hlive : ∀ r ∈ rs, r ∈ (w.files a.stack).live) :
    ∃ w', bulkFreeMany a rs w = ⟨.ok (), w', [w]⟩ ∧ w'.Quiet ∧
      (w'.files a.stack).len = (w.files a.stack).len ∧
      w'.freed = w.freed ++ rs.map fun r => (a.stack, r) := by
  obtain ⟨w', hrun, hq', hl', hf'⟩ := freeAll_run (a := a) rs hq hnd hlive
  refine ⟨w', ?_, hq', hl', hf'⟩
  simp only [bulkFreeMany, Prog.durable_apply, if_neg hq.not_faulty, hq.tick_eq, hrun]

theorem finishBulk_run {a : Allocator} {committed : Bool} {base : Nat} {es : List WalEntry}
    {w : World} (hbulk : a.atomicBulk = true) (hq : w.Quiet)
    (hlen : base + es.length * WAL_ENTRY_SIZE ≤ (w.files a.stack).len)
    (hrec : Reclaimable (w.files a.stack) (orphans committed es)) :
    ∃ w' cs, HeldLock.finishBulk a committed base es w =
        ⟨.ok (orphans committed es).length, w', cs⟩ ∧ w'.Quiet ∧
      (w'.files a.stack).len = (w.files a.stack).len ∧
      w'.freed = w.freed ++ (orphans committed es).map fun p => (a.stack, p.2) := by
  obtain ⟨w1, cs1, hrun1, hq1, hl1, hv1,
    hf1⟩ := markOrphans_run committed es (w := w) 0 hq (by simpa using hlen) hrec.home
  rw [HeldLock.finishBulk, Prog.bind_of_ok hrun1]
  by_cases hnil : (orphans committed es).map Prod.snd = []
  · have hnil' : orphans committed es = [] := List.map_eq_nil_iff.mp hnil
    refine ⟨w1, cs1, ?_, hq1, hl1, by simp [hf1, hnil']⟩
    simp [HeldLock.freeLocal, hnil', Prog.forEach]
  · obtain ⟨w2, hrun2, hq2, hl2, hf2⟩ := bulkFreeMany_run (a := a) hq1 hrec.nodup fun r hr => by
      obtain ⟨p, hp, rfl⟩ := List.mem_map.mp hr
      exact hv1 ▸ hrec.live p hp
    refine ⟨w2, cs1 ++ [w1], ?_, hq2, hl2.trans hl1, by simp [hf2, hf1, List.map_map, Function.comp_def]⟩
    have hfree : HeldLock.freeLocal a ((orphans committed es).map Prod.snd) w1 = ⟨.ok (), w2, [w1]⟩ := by
      rw [HeldLock.freeLocal, if_neg hnil, freeMany, if_pos hbulk]
      exact hrun2
    rw [Prog.bind_of_ok hfree]
    simp [Prog.forEach]

/-! ### `finish` -/

theorem reclaim_run {a : Allocator} {committed : Bool} {es : List WalEntry} {w : World} (base : Nat)
    (hq : w.Quiet) (hlen : base + es.length * WAL_ENTRY_SIZE ≤ (w.files a.stack).len)
    (hrec : Reclaimable (w.files a.stack) (orphans committed es)) :
    ∃ w' cs, HeldLock.reclaim a committed base es w =
        ⟨.ok (orphans committed es).length, w', cs⟩ ∧ w'.Quiet ∧
      (w'.files a.stack).len = (w.files a.stack).len ∧
      w'.freed = w.freed ++ (orphans committed es).map fun p => (a.stack, p.2) := by
  rw [HeldLock.reclaim]
  by_cases hbulk : a.atomicBulk = true
  · rw [if_pos hbulk]
    exact finishBulk_run hbulk hq hlen hrec
  · rw [if_neg hbulk]
    simpa using finishEntries_run base es 0 0 hq (by simpa using hlen) hrec

theorem owedBy_eq (status : WalStatus) (es : List WalEntry) :
    owedBy status es = if status = .none then [] else orphans (decide (status = .complete)) es := rfl

/-- A recovery frees what the log owes and nothing else. -/
theorem heldFinish_run {a : Allocator} {slot off cap : Nat} {status : UInt8}
    {entries : List WalEntry} {w : World} (hq : w.Quiet)
    (h : LogAt a slot off status cap entries (w.files a.stack)) (hcap : cap ≤ WAL_MAX_CAP)
    (hrec : Reclaimable (w.files a.stack) (owedBy (WalStatus.fromU8 status) entries)) :
    ∃ n w' cs, HeldLock.finish a w = ⟨.ok n, w', cs⟩ ∧
      w'.freed = w.freed ++ (owedBy (WalStatus.fromU8 status) entries).map fun p => (a.stack, p.2) := by
  have hstop := h.stop_le
  have hle := h.entries_le
  rw [HeldLock.finish, Prog.bind_of_ok (load_logAt hq h hcap)]
  simp only
  rw [show WalHeader.txnStatus ⟨WAL_MAGIC, status, entries.length, cap⟩ = WalStatus.fromU8 status
    from rfl]
  rw [owedBy_eq] at hrec ⊢
  by_cases hnone : WalStatus.fromU8 status = .none
  · rw [if_pos hnone, if_pos hnone]
    exact ⟨0, w, [], rfl, by simp⟩
  · rw [if_neg hnone] at hrec
    rw [if_neg hnone, if_neg hnone]
    obtain ⟨w1, cs, hrun, hq1, hl1, hf1⟩ := reclaim_run (off + WAL_HEADER_SIZE) hq (by omega) hrec
    have hidle := set_run a.stack (off + WAL_STATUS_OFFSET) [WalStatus.none.toU8] hq1 (by
        simp only [List.length_singleton, WAL_STATUS_OFFSET, WAL_HEADER_SIZE] at *; omega)
    refine ⟨(orphans (decide (WalStatus.fromU8 status = .complete)) entries).length,
      w1.store a.stack (off + WAL_STATUS_OFFSET) [WalStatus.none.toU8], cs ++ [w1], ?_, ?_⟩
    · rw [Prog.bind_of_ok hrun, HeldLock.setIdle, Prog.bind_of_ok hidle]
      rfl
    · simpa using hf1

theorem heldFinish_oversized {a : Allocator} {slot off cap : Nat} {status : UInt8}
    {entries : List WalEntry} {w : World} (hq : w.Quiet)
    (h : LogAt a slot off status cap entries (w.files a.stack)) (hcap : WAL_MAX_CAP < cap) :
    HeldLock.finish a w = ⟨.error HeldLock.corruptWalCapacity, w, []⟩ := by
  rw [HeldLock.finish, Prog.bind_of_error (load_oversized hq h hcap)]

/-! ### Recovery frees whatever the log owes -/

theorem set_frees_nothing (k off : Nat) (data : List UInt8) (w : World) :
    (set k off data w).final.freed = w.freed ∧ (set k off data w).final.attached = w.attached := by
  simp only [set, Prog.durable_apply]
  split
  · exact ⟨rfl, rfl⟩
  · split <;> exact ⟨rfl, rfl⟩

theorem deallocRange_frees {a : Allocator} {r : Range} {w : World}
    (hok : (deallocRange a r w).out = .ok ()) :
    (deallocRange a r w).final.freed.length = w.freed.length + 1 ∧
      (deallocRange a r w).final.attached = w.attached := by
  simp only [deallocRange, Prog.durable_apply] at hok ⊢
  split at hok
  · cases hok
  · rename_i hf
    split at hok
    · rename_i hr
      rw [if_neg hf, if_pos hr]
      exact ⟨by simp, rfl⟩
    · cases hok

/-- With every file attached, a recorded free that returns has freed its slice. -/
theorem freeRecorded_frees {a : Allocator} {id : Nat} {r : Range} {w : World}
    (hatt : w.attached = fun _ => some a) (hok : (HeldLock.freeRecorded a id r w).out = .ok ()) :
    (HeldLock.freeRecorded a id r w).final.freed.length = w.freed.length + 1 ∧
      (HeldLock.freeRecorded a id r w).final.attached = w.attached := by
  have hres : HeldLock.resolve w a id = some a := by simp [HeldLock.resolve, hatt]
  have hrun : HeldLock.freeRecorded a id r w = deallocRange a r w := by
    simp only [HeldLock.freeRecorded, hres]
  rw [hrun] at hok ⊢
  exact deallocRange_frees hok

theorem finishEntries_frees {a : Allocator} {committed : Bool} {base : Nat} (es : List WalEntry) :
    ∀ {w : World} {i n m : Nat}, w.attached = (fun _ => some a) →
      (HeldLock.finishEntries a committed base i es n w).out = .ok m →
      (HeldLock.finishEntries a committed base i es n w).final.freed.length =
        w.freed.length + (orphans committed es).length := by
  induction es with
  | nil =>
      intro w i n m _ _
      rfl
  | cons e es ih =>
      intro w i n m hatt hok
      cases ho : HeldLock.orphan committed e with
      | none =>
          rw [orphans_cons_none es ho]
          simp only [HeldLock.finishEntries, ho] at hok ⊢
          exact ih hatt hok
      | some r =>
          rw [orphans_cons_some es ho]
          simp only [HeldLock.finishEntries, ho] at hok ⊢
          obtain ⟨_, -, hrest, hfin, -⟩ := Prog.bind_ok_inv hok
          obtain ⟨_, hfree, hloop, hfin', -⟩ := Prog.bind_ok_inv hrest
          obtain ⟨hset, hset'⟩ := set_frees_nothing a.stack (base + i * WAL_ENTRY_SIZE)
            [WalStatus.complete.toU8] w
          obtain ⟨hlen, hatt'⟩ := freeRecorded_frees (hset'.trans hatt) hfree
          rw [hfin, hfin', ih (hatt'.trans (hset'.trans hatt)) hloop, hlen, hset, List.length_cons]
          omega

theorem markOrphans_frees {a : Allocator} {committed : Bool} {base : Nat} (es : List WalEntry) :
    ∀ {w : World} {i : Nat} {p : List Range × List (Nat × Range)},
      (HeldLock.markOrphans a committed base i es w).out = .ok p →
      p.1.length + p.2.length = (orphans committed es).length ∧
        (HeldLock.markOrphans a committed base i es w).final.freed = w.freed ∧
        (HeldLock.markOrphans a committed base i es w).final.attached = w.attached := by
  induction es with
  | nil =>
      intro w i p hok
      cases hok
      exact ⟨rfl, rfl, rfl⟩
  | cons e es ih =>
      intro w i p hok
      cases ho : HeldLock.orphan committed e with
      | none =>
          rw [orphans_cons_none es ho]
          simp only [HeldLock.markOrphans, ho] at hok ⊢
          exact ih hok
      | some r =>
          rw [orphans_cons_some es ho]
          simp only [HeldLock.markOrphans, ho] at hok ⊢
          obtain ⟨_, -, hrest, hfin, -⟩ := Prog.bind_ok_inv hok
          obtain ⟨q, hq, hlast, hfin', -⟩ := Prog.bind_ok_inv hrest
          obtain ⟨hset, hset'⟩ := set_frees_nothing a.stack (base + i * WAL_ENTRY_SIZE)
            [WalStatus.complete.toU8] w
          obtain ⟨hlen, hfreed, hatt⟩ := ih hq
          rw [hfin, hfin']
          split at hlast <;> rename_i hself <;> cases hlast
          · simp only [if_pos hself]
            exact ⟨by simp only [List.length_cons]; omega, hfreed.trans hset, hatt.trans hset'⟩
          · simp only [if_neg hself]
            exact ⟨by simp only [List.length_cons]; omega, hfreed.trans hset, hatt.trans hset'⟩

theorem freeAll_frees {a : Allocator} (rs : List Range) : ∀ {w w' : World},
    freeAll a rs w = some w' → w'.freed.length = w.freed.length + rs.length ∧
      w'.attached = w.attached := by
  induction rs with
  | nil =>
      intro w w' h
      cases h
      exact ⟨rfl, rfl⟩
  | cons r rs ih =>
      intro w w' h
      rw [freeAll] at h
      split at h
      · obtain ⟨hlen, hatt⟩ := ih h
        rw [hlen, World.freed_release, List.length_append, List.length_cons]
        exact ⟨by simp only [List.length_cons, List.length_nil]; omega, hatt⟩
      · cases h

theorem bulkFreeMany_frees {a : Allocator} {rs : List Range} {w : World}
    (hok : (bulkFreeMany a rs w).out = .ok ()) :
    (bulkFreeMany a rs w).final.freed.length = w.freed.length + rs.length ∧
      (bulkFreeMany a rs w).final.attached = w.attached := by
  simp only [bulkFreeMany, Prog.durable_apply] at hok ⊢
  split at hok
  · cases hok
  · rename_i hf
    rw [if_neg hf]
    cases hrun : freeAll a rs w.tick with
    | none =>
        rw [hrun] at hok
        cases hok
    | some w' =>
        obtain ⟨hlen, hatt⟩ := freeAll_frees rs hrun
        exact ⟨hlen, hatt⟩

theorem freeLocal_frees {a : Allocator} {rs : List Range} {w : World} (hbulk : a.atomicBulk = true)
    (hok : (HeldLock.freeLocal a rs w).out = .ok ()) :
    (HeldLock.freeLocal a rs w).final.freed.length = w.freed.length + rs.length ∧
      (HeldLock.freeLocal a rs w).final.attached = w.attached := by
  rw [HeldLock.freeLocal] at hok ⊢
  by_cases hnil : rs = []
  · rw [if_pos hnil, hnil]
    exact ⟨rfl, rfl⟩
  · rw [if_neg hnil, freeMany, if_pos hbulk] at hok ⊢
    exact bulkFreeMany_frees hok

theorem forEach_frees {a : Allocator} (ps : List (Nat × Range)) : ∀ {w : World},
    w.attached = (fun _ => some a) →
    (Prog.forEach (fun p => HeldLock.freeRecorded a p.1 p.2) ps w).out = .ok () →
    (Prog.forEach (fun p => HeldLock.freeRecorded a p.1 p.2) ps w).final.freed.length =
      w.freed.length + ps.length := by
  induction ps with
  | nil =>
      intro w _ _
      rfl
  | cons p ps ih =>
      intro w hatt hok
      rw [Prog.forEach] at hok ⊢
      obtain ⟨_, hfree, hrest, hfin, -⟩ := Prog.bind_ok_inv hok
      obtain ⟨hlen, hatt'⟩ := freeRecorded_frees hatt hfree
      rw [hfin, ih (hatt'.trans hatt) hrest, hlen, List.length_cons]
      omega

theorem reclaim_frees {a : Allocator} {committed : Bool} {base n : Nat} {es : List WalEntry}
    {w : World} (hatt : w.attached = fun _ => some a)
    (hok : (HeldLock.reclaim a committed base es w).out = .ok n) :
    (HeldLock.reclaim a committed base es w).final.freed.length =
      w.freed.length + (orphans committed es).length := by
  rw [HeldLock.reclaim] at hok ⊢
  by_cases hbulk : a.atomicBulk = true
  · rw [if_pos hbulk, HeldLock.finishBulk] at hok ⊢
    obtain ⟨p, hp, hrest, hfin, -⟩ := Prog.bind_ok_inv hok
    obtain ⟨hlen, hfreed, hatt1⟩ := markOrphans_frees es hp
    obtain ⟨_, hlocal, hrest2, hfin2, -⟩ := Prog.bind_ok_inv hrest
    obtain ⟨_, hforeign, -, hfin3, -⟩ := Prog.bind_ok_inv hrest2
    obtain ⟨h2, hatt2⟩ := freeLocal_frees hbulk hlocal
    have h3 := forEach_frees p.2 (hatt2.trans (hatt1.trans hatt)) hforeign
    rw [hfin, hfin2, hfin3, ← hlen, ← hfreed]
    simp only [Prog.pure_apply]
    rw [h3, h2]
    omega
  · rw [if_neg hbulk] at hok ⊢
    exact finishEntries_frees es hatt hok

/-- A recovery that returns, with every file attached, has freed all the log owed. -/
theorem heldFinish_frees {a : Allocator} {slot off cap n : Nat} {status : UInt8}
    {entries : List WalEntry} {w : World} (hq : w.Quiet)
    (h : LogAt a slot off status cap entries (w.files a.stack)) (hatt : w.attached = fun _ => some a)
    (hok : (HeldLock.finish a w).out = .ok n) :
    (HeldLock.finish a w).final.freed.length =
      w.freed.length + (owedBy (WalStatus.fromU8 status) entries).length := by
  by_cases hmax : WAL_MAX_CAP < cap
  · rw [heldFinish_oversized hq h hmax] at hok
    cases hok
  rw [HeldLock.finish, Prog.bind_of_ok (load_logAt hq h (Nat.not_lt.mp hmax)), Run.after_nil] at hok ⊢
  simp only at hok ⊢
  rw [show WalHeader.txnStatus ⟨WAL_MAGIC, status, entries.length, cap⟩ = WalStatus.fromU8 status
    from rfl] at hok ⊢
  rw [owedBy_eq]
  by_cases hnone : WalStatus.fromU8 status = .none
  · rw [if_pos hnone, if_pos hnone]
    rfl
  · rw [if_neg hnone] at hok
    rw [if_neg hnone, if_neg hnone]
    obtain ⟨m, hm, hidle, hfin, -⟩ := Prog.bind_ok_inv hok
    obtain ⟨_, -, -, hfin2, -⟩ := Prog.bind_ok_inv hidle
    rw [hfin, hfin2]
    simp only [Prog.pure_apply, HeldLock.setIdle, set_frees_nothing]
    exact reclaim_frees hatt hm

theorem heldFinish_noLog {a : Allocator} {slot : Nat} {w : World} (hq : w.Quiet)
    (h : NoLog a slot (w.files a.stack)) : HeldLock.finish a w = ⟨.ok 0, w, []⟩ := by
  rw [HeldLock.finish, Prog.bind_of_ok (load_noLog hq h)]
  rfl

end BStackRaii
