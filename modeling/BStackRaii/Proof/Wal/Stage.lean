import BStackRaii.Proof.Wal.State
/-!
# Staging a log

A staged log lands in one write at the end of `persist`. Before that write the old log is in place,
or, once a fresh block is linked, an idle one. These are the crash points of every staging.
-/

namespace BStackRaii

/-! ### The capacity of a fresh block -/

theorem le_nextPowerOfTwo (n : Nat) : n ≤ nextPowerOfTwo n := by
  rw [nextPowerOfTwo]
  split
  · assumption
  · have h := Nat.lt_log2_self (n := n - 1)
    omega

theorem nextPowerOfTwo_le {n k : Nat} (h : n ≤ 2 ^ k) : nextPowerOfTwo n ≤ 2 ^ k := by
  rw [nextPowerOfTwo]
  split
  · exact Nat.one_le_two_pow
  · have hlog : (n - 1).log2 < k := (Nat.log2_lt (by omega)).mpr (by omega)
    exact Nat.pow_le_pow_right (by decide) hlog

theorem le_freshCapacity (n : Nat) : n ≤ HeldLock.freshCapacity n :=
  Nat.le_trans (Nat.le_max_left _ _) (le_nextPowerOfTwo _)

theorem freshCapacity_le_max {n : Nat} (h : n ≤ WAL_MAX_CAP) :
    HeldLock.freshCapacity n ≤ WAL_MAX_CAP :=
  nextPowerOfTwo_le (Nat.max_le.mpr ⟨h, by decide⟩)

theorem freshCapacity_small {n : Nat} (h : n ≤ WAL_MIN_CAP) :
    HeldLock.freshCapacity n = WAL_MIN_CAP := by
  rw [HeldLock.freshCapacity, Nat.max_eq_right h]
  decide

/-! ### Creating a block -/

section Create

variable {a : Allocator} {slot off cap p c : Nat} {status : UInt8} {entries : List WalEntry}
  {w : World}

/-- The image of an empty log: the header alone. -/
theorem blockImage_nil (status : WalStatus) (capacity : Nat) :
    blockImage [] status capacity = WalHeader.encode ⟨WAL_MAGIC, status.toU8, 0, capacity⟩ := by
  simp [blockImage]

/-- A fresh block of `c` slots at `p` once its idle header is written. -/
def initialised (w : World) (k p c : Nat) (h : (w.files k).Admits (WalBlock.at p c).range) : World :=
  (w.grant k _ h).store k p (blockImage [] .none c)

/-- The same once the anchor names it. -/
def linked (w : World) (k slot p c : Nat) (h : (w.files k).Admits (WalBlock.at p c).range) : World :=
  (initialised w k p c h).store k slot (leBytes 8 p)

/-- The same once the block it replaces is freed. -/
def replaced (w : World) (k slot p c : Nat) (h : (w.files k).Admits (WalBlock.at p c).range) :
    Option Range → World
  | none => linked w k slot p c h
  | some old => (linked w k slot p c h).release k old

variable {h : (w.files a.stack).Admits (WalBlock.at p c).range}

theorem admits_at (h : (w.files a.stack).Admits (WalBlock.at p c).range) :
    16 ≤ p ∧ p + WAL_HEADER_SIZE + c * WAL_ENTRY_SIZE < 2 ^ 64 := by
  have hstop := h.2.1
  rw [WalBlock.at_stop] at hstop
  exact ⟨h.1, hstop⟩

theorem live_linked : ((linked w a.stack slot p c h).files a.stack).live =
    (WalBlock.at p c).range :: (w.files a.stack).live := by
  simp [linked, initialised]

theorem logAt_linked (hanchor : a.walAnchor = some slot) (hres : slot + 8 ≤ 16)
    (h : (w.files a.stack).Admits (WalBlock.at p c).range) :
    LogAt a slot p WalStatus.none.toU8 c [] ((linked w a.stack slot p c h).files a.stack) := by
  obtain ⟨hge, hlt⟩ := admits_at h
  have hc : c < 2 ^ 64 := by
    simp only [WAL_ENTRY_SIZE] at hlt
    omega
  have hlen : (leBytes 8 p).length = 8 := length_leBytes 8 p
  refine ⟨hanchor, hres, ?_, ?_, ?_⟩
  · simp only [linked, World.files_store_same, File.bytes_write]
    exact Mem.word_write_self (by omega)
  · rw [live_linked]
    exact List.mem_cons_self ..
  · simp only [linked, initialised, World.files_store_same, World.files_grant_same, File.bytes_write,
      File.bytes_allocAt]
    exact (HoldsWal.of_image _ p .none (by simp) (by simp) hc).write_outside (by omega)

theorem logAt_replaced (old : Option Range) (hanchor : a.walAnchor = some slot)
    (hres : slot + 8 ≤ 16) (h : (w.files a.stack).Admits (WalBlock.at p c).range)
    (hold : ∀ r ∈ old, r ∈ (w.files a.stack).live) :
    LogAt a slot p WalStatus.none.toU8 c [] ((replaced w a.stack slot p c h old).files a.stack) := by
  cases old with
  | none => exact logAt_linked hanchor hres h
  | some r =>
      have hne : r ≠ (WalBlock.at p c).range := fun he =>
        Range.not_apart_self _ (he ▸ h.2.2 r (hold r rfl))
      rw [replaced, World.files_release_same]
      exact (logAt_linked hanchor hres h).free hne

theorem NoLog.initialised (hno : NoLog a slot (w.files a.stack)) :
    NoLog a slot ((w.grant a.stack _ h).files a.stack) ∧
      NoLog a slot ((initialised w a.stack p c h).files a.stack) := by
  rw [World.files_grant_same, BStackRaii.initialised, World.files_store_same, World.files_grant_same]
  exact ⟨hno.allocAt h, (hno.allocAt h).write (admits_at h).1⟩

theorem LogAt.initialised (hat : LogAt a slot off status cap entries (w.files a.stack)) :
    LogAt a slot off status cap entries ((w.grant a.stack _ h).files a.stack) ∧
      LogAt a slot off status cap entries ((initialised w a.stack p c h).files a.stack) := by
  rw [World.files_grant_same, BStackRaii.initialised, World.files_store_same, World.files_grant_same]
  have hne : (WalBlock.at p c).range ≠ (WalBlock.at off cap).range := fun he =>
    Range.not_apart_self _ (he ▸ h.2.2 _ hat.live)
  refine ⟨hat.allocAt h, (hat.allocAt h).write_live (List.mem_cons_self ..) hne (Nat.le_refl _) ?_⟩
  rw [blockImage_nil, WalHeader.length_encode, WalBlock.at_stop]
  omega

theorem createBlock_cases (needed : Nat) (old : Option Range) (hq : w.Quiet) (hres : slot + 8 ≤ 16)
    (hlen : 16 ≤ (w.files a.stack).len) (hold : ∀ r ∈ old, r ∈ (w.files a.stack).live) :
    (∃ e w', HeldLock.createBlock a slot needed old w = ⟨.error e, w', [w]⟩ ∧
      World.Alike w w') ∨
    ∃ p c, ∃ h : (w.files a.stack).Admits (WalBlock.at p c).range,
      c = HeldLock.freshCapacity needed ∧
      HeldLock.createBlock a slot needed old w =
        ⟨.ok (WalBlock.at p c), replaced w a.stack slot p c h old,
          [w, w.grant a.stack _ h, initialised w a.stack p c h] ++
            old.toList.map fun _ => linked w a.stack slot p c h⟩ := by
  generalize hc : HeldLock.freshCapacity needed = c
  rw [HeldLock.createBlock, hc]
  rcases alloc_cases a (WAL_HEADER_SIZE + c * WAL_ENTRY_SIZE) hq with
    ⟨e, w', hrun, hsame⟩ | ⟨r, hadm, hsize, hrun⟩
  · exact .inl ⟨e, w', by rw [Prog.bind_of_error hrun], hsame⟩
  right
  obtain ⟨p, rfl⟩ : ∃ p, r = (WalBlock.at p c).range := by
    obtain ⟨p, len⟩ := r
    simp only at hsize
    subst hsize
    exact ⟨p, rfl⟩
  obtain ⟨hge, hlt⟩ := admits_at hadm
  have hlen8 : (leBytes 8 p).length = 8 := length_leBytes 8 p
  have hinit : HeldLock.initBlock a (WalBlock.at p c).range c (w.grant a.stack _ hadm) =
      ⟨.ok (), initialised w a.stack p c hadm, [w.grant a.stack _ hadm]⟩ := by
    have hset := set_run a.stack p (blockImage [] .none c) (w := w.grant a.stack _ hadm) (by simpa using hq) (by
        rw [blockImage_nil, WalHeader.length_encode, World.files_grant_same, File.len_allocAt,
          WalBlock.at_stop]
        omega)
    rw [blockImage_nil] at hset
    rw [HeldLock.initBlock, WalBlock.at_start, Prog.bind_of_ok (Prog.attempt_apply ..), hset,
      ← blockImage_nil]
    rfl
  have hlink := set_run a.stack slot (leBytes 8 p) (w := initialised w a.stack p c hadm)
    (by simpa [initialised] using hq) (by
      simp only [initialised, World.files_store_same, World.files_grant_same, File.len_write,
        File.len_allocAt, hlen8]
      omega)
  rw [← linked] at hlink
  refine ⟨p, c, hadm, rfl, ?_⟩
  rw [Prog.bind_of_ok hrun, Prog.bind_of_ok hinit, WalBlock.at_start, Prog.bind_of_ok hlink]
  cases old with
  | none => rfl
  | some r =>
      have hfree := deallocRange_run (a := a) (r := r) (w := linked w a.stack slot p c hadm)
        (by simpa [linked, initialised] using hq) (by
          rw [live_linked]
          exact List.mem_cons_of_mem _ (hold r rfl))
      simp only
      rw [Prog.bind_of_ok hfree]
      rfl

end Create

/-! ### `persist` -/

section Persist

variable {a : Allocator} {slot off cap : Nat} {status : UInt8} {entries log : List WalEntry}
  {w : World}

theorem set_image_run (st : WalStatus) {p c : Nat} (hq : w.Quiet)
    (hlive : (WalBlock.at p c).range ∈ (w.files a.stack).live)
    (hle : log.length ≤ c) :
    set a.stack p (blockImage log st c) w = ⟨.ok (), w.store a.stack p (blockImage log st c), [w]⟩ := by
  have hstop := ((w.files a.stack).inside _ hlive).2
  have hmul := Nat.mul_le_mul_right WAL_ENTRY_SIZE hle
  rw [WalBlock.at_stop] at hstop
  refine set_run _ _ _ hq ?_
  rw [blockImage, List.length_append, WalHeader.length_encode,
    length_records WalEntry.encode WalEntry.length_encode]
  omega

theorem live_replaced {p c : Nat} (old : Option Range)
    {h : (w.files a.stack).Admits (WalBlock.at p c).range}
    (hold : ∀ r ∈ old, r ∈ (w.files a.stack).live) :
    (WalBlock.at p c).range ∈ ((replaced w a.stack slot p c h old).files a.stack).live := by
  cases old with
  | none =>
      rw [replaced, live_linked]
      exact List.mem_cons_self ..
  | some r =>
      have hne : (WalBlock.at p c).range ≠ r := fun he =>
        Range.not_apart_self _ (he ▸ h.2.2 r (hold r rfl))
      rw [replaced, World.files_release_same, File.live_free, List.mem_erase_of_ne hne, live_linked]
      exact List.mem_cons_self ..

/-- Staging on a file without a log. -/
theorem persist_noLog_cases (log : List WalEntry) (st : WalStatus) (hq : w.Quiet)
    (hno : NoLog a slot (w.files a.stack)) :
    (∃ e w', HeldLock.persist a log st w = ⟨.error e, w', [w]⟩ ∧
      World.Alike w w') ∨
    ∃ p c, ∃ h : (w.files a.stack).Admits (WalBlock.at p c).range,
      c = HeldLock.freshCapacity log.length ∧ HeldLock.persist a log st w =
        ⟨.ok (WalBlock.at p c), (linked w a.stack slot p c h).store a.stack p (blockImage log st c),
          [w, w.grant a.stack _ h, initialised w a.stack p _ h, linked w a.stack slot p _ h]⟩ := by
  have hensure : HeldLock.ensureBlock a log.length w = HeldLock.createBlock a slot log.length none w := by
    simp only [HeldLock.ensureBlock, hno.anchor]
    rw [Prog.bind_of_ok (existingBlock_noLog hq hno _), Run.after_nil, HeldLock.settleBlock]
  rw [HeldLock.persist]
  rcases createBlock_cases log.length none hq hno.reserved hno.readable (by simp)
    with ⟨e, w', hrun, hsame⟩ | ⟨p, c, h, rfl, hrun⟩
  · exact .inl ⟨e, w', by rw [Prog.bind_of_error (hensure.trans hrun)], hsame⟩
  · have himage := set_image_run st (a := a) (p := p) (w := linked w a.stack slot p _ h)
      (by simpa [linked, initialised] using hq) (live_replaced none (by simp))
      (le_freshCapacity log.length)
    refine .inr ⟨p, _, h, rfl, ?_⟩
    rw [Prog.bind_of_ok (hensure.trans hrun), WalBlock.at_start, WalBlock.at_capacity, replaced,
      Prog.bind_of_ok himage]
    rfl

/-- Staging on a file with a log: in place, or in a larger block. -/
theorem persist_logAt_cases (log : List WalEntry) (st : WalStatus) (hq : w.Quiet)
    (hat : LogAt a slot off status cap entries (w.files a.stack)) :
    (∃ e w' cs, HeldLock.persist a log st w = ⟨.error e, w', cs⟩ ∧ (∀ t ∈ cs, t = w) ∧
      World.Alike w w') ∨
    (cap ≤ WAL_MAX_CAP ∧ log.length ≤ cap ∧ HeldLock.persist a log st w =
      ⟨.ok (WalBlock.at off cap), w.store a.stack off (blockImage log st cap), [w]⟩) ∨
    (cap ≤ WAL_MAX_CAP ∧ cap < log.length ∧ ∃ p c,
      ∃ h : (w.files a.stack).Admits (WalBlock.at p c).range,
      c = HeldLock.freshCapacity log.length ∧ HeldLock.persist a log st w =
        ⟨.ok (WalBlock.at p c),
          (replaced w a.stack slot p c h (some (WalBlock.at off cap).range)).store a.stack p
            (blockImage log st c),
          [w, w.grant a.stack _ h, initialised w a.stack p _ h, linked w a.stack slot p _ h,
            replaced w a.stack slot p _ h (some (WalBlock.at off cap).range)]⟩) := by
  have hexist := existingBlock_logAt hq hat log.length
  have hensure : HeldLock.ensureBlock a log.length w =
      (HeldLock.existingBlock a log.length >>= HeldLock.settleBlock a slot log.length) w := by
    simp only [HeldLock.ensureBlock, hat.anchor]
  rw [HeldLock.persist]
  by_cases hmax : cap > WAL_MAX_CAP
  · rw [if_pos hmax] at hexist
    rw [Prog.bind_of_error hexist] at hensure
    exact .inl ⟨_, w, [], by rw [Prog.bind_of_error hensure], by simp, rfl, rfl, rfl⟩
  rw [if_neg hmax] at hexist
  by_cases hfit : cap ≥ log.length
  · rw [if_pos hfit] at hexist
    rw [Prog.bind_of_ok hexist] at hensure
    have himage := set_image_run st hq hat.live hfit
    have hens : HeldLock.ensureBlock a log.length w = ⟨.ok (WalBlock.at off cap), w, []⟩ := hensure
    refine .inr (.inl ⟨by omega, hfit, ?_⟩)
    rw [Prog.bind_of_ok hens, WalBlock.at_start, WalBlock.at_capacity, Prog.bind_of_ok himage]
    rfl
  · rw [if_neg hfit] at hexist
    rw [Prog.bind_of_ok hexist] at hensure
    have hens : HeldLock.ensureBlock a log.length w =
      HeldLock.createBlock a slot log.length (some (WalBlock.at off cap).range) w := hensure
    have hlive : ∀ r ∈ some (WalBlock.at off cap).range, r ∈ (w.files a.stack).live := by
      intro r hr
      cases hr
      exact hat.live
    have hlen : 16 ≤ (w.files a.stack).len := by
      have := hat.off_ge
      have := hat.stop_le
      omega
    rcases createBlock_cases log.length _ hq hat.reserved hlen hlive with
      ⟨e, w', hrun, hsame⟩ | ⟨p, c, h, rfl, hrun⟩
    · exact .inl ⟨e, w', [w], by rw [Prog.bind_of_error (hens.trans hrun)], by simp, hsame⟩
    · have himage := set_image_run st (a := a) (p := p)
        (w := replaced w a.stack slot p _ h (some (WalBlock.at off cap).range))
        (by simpa [replaced, linked, initialised] using hq) (live_replaced _ hlive)
        (le_freshCapacity log.length)
      refine .inr (.inr ⟨by omega, by omega, p, _, h, rfl, ?_⟩)
      rw [Prog.bind_of_ok (hens.trans hrun), WalBlock.at_start, WalBlock.at_capacity,
        Prog.bind_of_ok himage]
      rfl

end Persist

end BStackRaii
