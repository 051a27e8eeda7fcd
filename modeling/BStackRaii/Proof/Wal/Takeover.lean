import BStackRaii.Proof.Faults
import BStackRaii.Proof.Wal.Stage
/-!
# How far a staging gets

`Proof/Wal/Stage` follows a staging where nothing fails. Here any step may fail. One write takes the log over: the
new image in place, or the link to a larger block. A staging makes that write, or it fails and leaves the old log in
place, whatever else it has done.
-/

namespace BStackRaii

variable {a : Allocator} {slot off cap : Nat} {status : UInt8} {entries : List WalEntry} {w : World}

/-- The allocator has a place for a block of `c` slots. -/
def RoomFor (a : Allocator) (c : Nat) (w : World) : Prop :=
  ∃ p ∈ w.picks.head?, (w.files a.stack).Admits (WalBlock.at p c).range

instance (a : Allocator) (c : Nat) (w : World) : Decidable (RoomFor a c w) :=
  inferInstanceAs (Decidable (∃ p ∈ w.picks.head?, _))

/-- A staging of `needed` entries takes over a log of `cap` slots: its two reads work, and then the write in place,
or the allocation of a larger block, its header and the link to it. -/
def TakesOver (a : Allocator) (cap needed : Nat) (w : World) : Prop :=
  cap ≤ WAL_MAX_CAP ∧ (needed ≤ cap ∧ w.Works 3 ∨
    cap < needed ∧ w.Works 5 ∧ RoomFor a (HeldLock.freshCapacity needed) w)

instance (a : Allocator) (cap needed : Nat) (w : World) : Decidable (TakesOver a cap needed w) :=
  inferInstanceAs (Decidable (_ ∧ _))

section Reads

variable (hat : LogAt a slot off status cap entries (w.files a.stack)) (needed : Nat)
include hat

theorem readAnchor_if : HeldLock.readAnchor a w =
    if w.Faulty then ⟨.error ioFault, w.tick, []⟩ else ⟨.ok (some off), w.tick, []⟩ := by
  have hstop := hat.stop_le
  have hge := hat.off_ge
  have hres := hat.reserved
  have hoff : off ≠ 0 := by omega
  have hread := readU64_if (show slot + 8 ≤ (w.files a.stack).len by omega)
  rw [HeldLock.readAnchor, hat.anchor]
  simp only
  split
  · rename_i hf
    rw [if_pos hf] at hread
    rw [Prog.bind_of_error hread]
  · rename_i hf
    rw [if_neg hf] at hread
    rw [Prog.bind_of_ok hread, hat.points, if_neg hoff]
    rfl

/-- What is found behind the anchor depends on the capacity, -/
theorem existingBlock_works (hw : w.Works 2) : HeldLock.existingBlock a needed w =
    ⟨if cap > WAL_MAX_CAP then .error HeldLock.corruptWalCapacity
      else if cap ≥ needed then .ok (.fits (WalBlock.at off cap))
      else .ok (.tooSmall (WalBlock.at off cap).range), w.skip 2, []⟩ := by
  obtain ⟨hfirst, hsecond⟩ := World.works_succ.mp hw
  have hanchor := readAnchor_if hat
  rw [if_neg hfirst] at hanchor
  have hstop := hat.stop_le
  have hheader := getInto_if (show off + WAL_HEADER_SIZE ≤ (w.tick.files a.stack).len by
    rw [World.files_tick]
    omega)
  rw [if_neg (World.works_one.mp hsecond), World.files_tick, World.tick_eq_skip, World.skip_tick] at hheader
  rw [HeldLock.existingBlock, Prog.bind_of_ok hanchor]
  simp only
  rw [World.tick_eq_skip, Prog.bind_of_ok hheader, hat.holds.header]
  simp only [if_true]
  split
  · rfl
  · split <;> rfl

/-- and where a read fails the staging is over. -/
theorem existingBlock_struck (hw : ¬ w.Works 2) :
    ∃ n, HeldLock.existingBlock a needed w = ⟨.error ioFault, w.skip n, []⟩ := by
  have hanchor := readAnchor_if hat
  rw [HeldLock.existingBlock]
  by_cases hf : w.Faulty
  · rw [if_pos hf] at hanchor
    exact ⟨1, by rw [Prog.bind_of_error hanchor, World.tick_eq_skip]⟩
  · rw [if_neg hf] at hanchor
    have hsecond : w.tick.Faulty := by
      by_contra hno
      exact hw (World.works_succ.mpr ⟨hf, World.works_one.mpr hno⟩)
    have hstop := hat.stop_le
    have hheader := getInto_if (show off + WAL_HEADER_SIZE ≤ (w.tick.files a.stack).len by
      rw [World.files_tick]
      omega)
    rw [if_pos hsecond] at hheader
    refine ⟨2, ?_⟩
    rw [Prog.bind_of_ok hanchor]
    simp only
    rw [Prog.bind_of_error hheader, World.tick_eq_skip, World.tick_skip]
    rfl

end Reads

theorem LogAt.deallocRange {r : Range} (hat : LogAt a slot off status cap entries (w.files a.stack))
    (hne : r ≠ (WalBlock.at off cap).range) :
    LogAt a slot off status cap entries ((deallocRange a r w).final.files a.stack) := by
  simp only [BStackRaii.deallocRange, Prog.durable_apply]
  split
  · exact hat
  · split
    · rw [World.files_release_same]
      exact hat.free hne
    · exact hat

/-- The old log is still in place in every state of the list. -/
def StillAt (a : Allocator) (slot off : Nat) (status : UInt8) (cap : Nat) (entries : List WalEntry)
    (ts : List World) : Prop :=
  ∀ t ∈ ts, LogAt a slot off status cap entries (t.files a.stack)

theorem stillAt_append {ts us : List World} : StillAt a slot off status cap entries (ts ++ us) ↔
    StillAt a slot off status cap entries ts ∧ StillAt a slot off status cap entries us := List.forall_mem_append

theorem stillAt_singleton : StillAt a slot off status cap entries [w] ↔
    LogAt a slot off status cap entries (w.files a.stack) := List.forall_mem_singleton

theorem alloc_refused {c : Nat} (h : ¬ (¬ w.Faulty ∧ RoomFor a c w)) :
    ∃ e w', alloc a (WAL_HEADER_SIZE + c * WAL_ENTRY_SIZE) w = ⟨.error e, w', [w]⟩ ∧ w'.files = w.files := by
  by_cases hf : w.Faulty
  · exact ⟨ioFault, w.tick, by simp only [alloc, Prog.durable_apply, if_pos hf], rfl⟩
  · have hroom : ¬ RoomFor a c w := fun hroom => h ⟨hf, hroom⟩
    simp only [alloc, Prog.durable_apply, if_neg hf]
    cases hp : w.picks with
    | nil => exact ⟨_, _, rfl, rfl⟩
    | cons p ps =>
        have hadm : ¬ (w.files a.stack).Admits ⟨p, WAL_HEADER_SIZE + c * WAL_ENTRY_SIZE⟩ :=
          fun hadm => hroom ⟨p, by rw [hp]; rfl, hadm⟩
        simp only [dif_neg hadm]
        exact ⟨_, _, rfl, rfl⟩

theorem alloc_granted {c : Nat} (hf : ¬ w.Faulty) (hroom : RoomFor a c w) :
    ∃ p, ∃ h : (w.files a.stack).Admits (WalBlock.at p c).range,
      alloc a (WAL_HEADER_SIZE + c * WAL_ENTRY_SIZE) w =
        ⟨.ok (WalBlock.at p c).range, w.tick.grant a.stack (WalBlock.at p c).range h, [w]⟩ := by
  obtain ⟨p, hp, hadm⟩ := hroom
  have hadm' : (w.files a.stack).Admits ⟨p, WAL_HEADER_SIZE + c * WAL_ENTRY_SIZE⟩ := hadm
  refine ⟨p, hadm, ?_⟩
  simp only [alloc, Prog.durable_apply, if_neg hf]
  cases hpicks : w.picks with
  | nil =>
      rw [hpicks] at hp
      cases hp
  | cons q ps =>
      rw [hpicks] at hp
      cases hp
      simp only [dif_pos hadm']
      rfl

section InitBlock

variable {p c : Nat}

theorem initBlock_works (hf : ¬ w.Faulty) (hlive : (WalBlock.at p c).range ∈ (w.files a.stack).live) :
    HeldLock.initBlock a (WalBlock.at p c).range c w =
      ⟨.ok (), w.tick.store a.stack p (blockImage [] .none c), [w]⟩ := by
  have hstop := ((w.files a.stack).inside _ hlive).2
  rw [WalBlock.at_stop] at hstop
  have hset := set_if (show p + (blockImage [] .none c).length ≤ (w.files a.stack).len by
    rw [blockImage_nil, WalHeader.length_encode]
    omega)
  rw [if_neg hf, blockImage_nil] at hset
  rw [HeldLock.initBlock, WalBlock.at_start, Prog.bind_of_ok (Prog.attempt_apply ..), hset, ← blockImage_nil]
  rfl

/-- A block whose header cannot be written is given back. -/
theorem initBlock_struck (hf : w.Faulty) (hat : LogAt a slot off status cap entries (w.files a.stack))
    (hne : (WalBlock.at p c).range ≠ (WalBlock.at off cap).range) : ∃ e w' cs,
      HeldLock.initBlock a (WalBlock.at p c).range c w = ⟨.error e, w', cs⟩ ∧
        StillAt a slot off status cap entries (cs ++ [w']) := by
  have hset : set a.stack (WalBlock.at p c).range.start (WalHeader.encode ⟨WAL_MAGIC, WalStatus.none.toU8, 0, c⟩) w =
      ⟨.error ioFault, w.tick, [w]⟩ := by
    simp only [set, Prog.durable_apply, if_pos hf]
  have hback : LogAt a slot off status cap entries (w.tick.files a.stack) := hat
  refine ⟨ioFault, (deallocRange a (WalBlock.at p c).range w.tick).final, [w, w.tick], ?_, ?_⟩
  · rw [HeldLock.initBlock, Prog.bind_of_ok (Prog.attempt_apply ..), hset]
    rfl
  · refine stillAt_append.mpr ⟨?_, stillAt_singleton.mpr (hback.deallocRange hne)⟩
    exact List.forall_mem_cons.mpr ⟨hat, stillAt_singleton.mpr hat⟩

end InitBlock

/-- Creating a block links it, or it fails and the old log is in place throughout. -/
theorem createBlock_outcome (hat : LogAt a slot off status cap entries (w.files a.stack)) (needed : Nat) (old : Range) :
    ((w.Works 3 ∧ RoomFor a (HeldLock.freshCapacity needed) w) ∧
      ∃ p c, ∃ h : (w.files a.stack).Admits (WalBlock.at p c).range,
        ∃ t ∈ (HeldLock.createBlock a slot needed (some old) w).cuts, t.files = (linked w a.stack slot p c h).files) ∨
    (¬ (w.Works 3 ∧ RoomFor a (HeldLock.freshCapacity needed) w) ∧ ∃ e w' cs,
      HeldLock.createBlock a slot needed (some old) w = ⟨.error e, w', cs⟩ ∧
        StillAt a slot off status cap entries (cs ++ [w'])) := by
  generalize hc : HeldLock.freshCapacity needed = c
  rw [HeldLock.createBlock, hc]
  -- the allocation
  by_cases halloc : ¬ w.Faulty ∧ RoomFor a c w
  swap
  · obtain ⟨e, w', hrun, hfiles⟩ := alloc_refused halloc
    refine .inr ⟨fun h => halloc ⟨(World.works_succ.mp h.1).1, h.2⟩, _, _, _, Prog.bind_of_error hrun, ?_⟩
    exact stillAt_append.mpr ⟨stillAt_singleton.mpr hat, stillAt_singleton.mpr (hfiles ▸ hat)⟩
  obtain ⟨hf, hroom⟩ := halloc
  obtain ⟨p, hadm, hrun⟩ := alloc_granted hf hroom
  have hne : (WalBlock.at p c).range ≠ (WalBlock.at off cap).range := fun he =>
    Range.not_apart_self _ (he ▸ hadm.2.2 _ hat.live)
  obtain ⟨hgranted, hinit⟩ := LogAt.initialised (h := hadm) hat
  have hgranted' : LogAt a slot off status cap entries
      ((w.tick.grant a.stack (WalBlock.at p c).range hadm).files a.stack) := hgranted
  have hlive : (WalBlock.at p c).range ∈ ((w.grant a.stack (WalBlock.at p c).range hadm).files a.stack).live := by
    rw [World.files_grant_same, File.live_allocAt]
    exact List.mem_cons_self
  rw [Prog.bind_of_ok hrun]
  -- the header
  by_cases hheader : (w.tick.grant a.stack (WalBlock.at p c).range hadm).Faulty
  · obtain ⟨e, w', cs, hfail, hstill⟩ := initBlock_struck hheader hgranted' hne
    rw [Prog.bind_of_error hfail]
    refine .inr ⟨fun h => ?_, e, w', [w] ++ cs, rfl, ?_⟩
    · exact (World.works_succ.mp (World.works_succ.mp h.1).2).1 hheader
    · rw [List.append_assoc]
      exact stillAt_append.mpr ⟨stillAt_singleton.mpr hat, hstill⟩
  rw [Prog.bind_of_ok (initBlock_works hheader hlive), WalBlock.at_start, Run.after_after]
  -- the link
  generalize hw : (w.tick.grant a.stack (WalBlock.at p c).range hadm).tick.store a.stack p (blockImage [] .none c) = v
  have hv : v.files = (initialised w a.stack p c hadm).files := hw ▸ rfl
  have hlen : slot + (leBytes 8 p).length ≤ (v.files a.stack).len := by
    have hstop := hinit.stop_le
    have hge := hinit.off_ge
    have hres := hinit.reserved
    rw [hv, length_leBytes]
    omega
  have hlink := set_if hlen
  have hfaults : v.faults = w.tick.tick.faults := hw ▸ rfl
  by_cases hlinkf : v.Faulty
  · rw [if_pos hlinkf] at hlink
    rw [Prog.bind_of_error hlink]
    refine .inr ⟨fun h => ?_, ioFault, v.tick, _, rfl, ?_⟩
    · have hthird := (World.works_succ.mp (World.works_succ.mp (World.works_succ.mp h.1).2).2).1
      rw [World.Faulty, ← hfaults] at hthird
      exact hthird hlinkf
    · have hold : LogAt a slot off status cap entries (v.files a.stack) := hv ▸ hinit
      simp only [stillAt_append, stillAt_singleton]
      exact ⟨⟨⟨hat, hgranted'⟩, hold⟩, hold⟩
  · rw [if_neg hlinkf] at hlink
    rw [Prog.bind_of_ok hlink]
    refine .inl ⟨⟨?_, hroom⟩, p, c, hadm, v.tick.store a.stack slot (leBytes 8 p), ?_, ?_⟩
    · refine World.works_succ.mpr ⟨hf, World.works_succ.mpr ⟨hheader, World.works_one.mpr ?_⟩⟩
      rw [World.Faulty, ← hfaults]
      exact hlinkf
    · exact List.mem_append_right _ (List.mem_append_right _ (Prog.cuts_bind_left (List.mem_singleton_self _)))
    · rw [linked]
      exact congrArg (fun files => Function.update files a.stack ((files a.stack).write slot (leBytes 8 p))) hv

/-- A staging takes over the log, in place or by the link of a larger block, or it fails and the old log is in place
throughout. -/
theorem persist_outcome (hat : LogAt a slot off status cap entries (w.files a.stack)) (log : List WalEntry)
    (st : WalStatus) :
    (TakesOver a cap log.length w ∧ log.length ≤ cap ∧ HeldLock.persist a log st w =
      ⟨.ok (WalBlock.at off cap), (w.skip 3).store a.stack off (blockImage log st cap), [w.skip 2]⟩) ∨
    (TakesOver a cap log.length w ∧ cap < log.length ∧ ∃ p c, ∃ h : (w.files a.stack).Admits (WalBlock.at p c).range,
      ∃ t ∈ (HeldLock.persist a log st w).cuts, t.files = (linked w a.stack slot p c h).files) ∨
    (¬ TakesOver a cap log.length w ∧ ∃ e w' cs, HeldLock.persist a log st w = ⟨.error e, w', cs⟩ ∧
      StillAt a slot off status cap entries (cs ++ [w'])) := by
  have hensure : HeldLock.ensureBlock a log.length =
      HeldLock.existingBlock a log.length >>= HeldLock.settleBlock a slot log.length := by
    simp only [HeldLock.ensureBlock, hat.anchor]
  rw [HeldLock.persist, hensure]
  by_cases hreads : w.Works 2
  swap
  · obtain ⟨n, hrun⟩ := existingBlock_struck hat log.length hreads
    refine .inr (.inr ⟨fun h => hreads ?_, _, _, _, Prog.bind_of_error (Prog.bind_of_error hrun),
      stillAt_singleton.mpr hat⟩)
    rcases h.2 with ⟨-, hworks⟩ | ⟨-, hworks, -⟩
    · exact (World.works_add (m := 2) (n := 1).mp hworks).1
    · exact (World.works_add (m := 2) (n := 3).mp hworks).1
  have hexist := existingBlock_works hat log.length hreads
  by_cases hmax : cap > WAL_MAX_CAP
  · rw [if_pos hmax] at hexist
    exact .inr (.inr ⟨fun h => absurd h.1 (Nat.not_le.mpr hmax), _, _, _,
      Prog.bind_of_error (Prog.bind_of_error hexist), stillAt_singleton.mpr hat⟩)
  rw [if_neg hmax] at hexist
  by_cases hfit : log.length ≤ cap
  · -- in place
    rw [if_pos hfit] at hexist
    have hens : (HeldLock.existingBlock a log.length >>= HeldLock.settleBlock a slot log.length) w =
        ⟨.ok (WalBlock.at off cap), w.skip 2, []⟩ := Prog.bind_of_ok hexist
    have hstop := hat.stop_le
    have hmul := Nat.mul_le_mul_right WAL_ENTRY_SIZE hfit
    have himage := set_if (show off + (blockImage log st cap).length ≤ ((w.skip 2).files a.stack).len by
      rw [World.files_skip, blockImage, List.length_append, WalHeader.length_encode,
        length_records WalEntry.encode WalEntry.length_encode]
      omega)
    rw [Prog.bind_of_ok hens, WalBlock.at_start, WalBlock.at_capacity]
    by_cases hf : (w.skip 2).Faulty
    · rw [if_pos hf] at himage
      rw [Prog.bind_of_error himage]
      refine .inr (.inr ⟨fun h => ?_, _, _, _, rfl, ?_⟩)
      · rcases h.2 with ⟨-, hworks⟩ | ⟨hlt, -⟩
        · exact World.works_one.mp (World.works_add (m := 2) (n := 1).mp hworks).2 hf
        · exact absurd hfit (Nat.not_le.mpr hlt)
      · exact stillAt_append.mpr ⟨stillAt_singleton.mpr hat, stillAt_singleton.mpr hat⟩
    · rw [if_neg hf, World.skip_tick] at himage
      rw [Prog.bind_of_ok himage]
      refine .inl ⟨⟨Nat.not_lt.mp hmax, .inl ⟨hfit, ?_⟩⟩, hfit, rfl⟩
      exact World.works_add (m := 2) (n := 1).mpr ⟨hreads, World.works_one.mpr hf⟩
  · -- in a larger block
    have hlt : cap < log.length := Nat.not_le.mp hfit
    rw [if_neg hfit] at hexist
    have hens : (HeldLock.existingBlock a log.length >>= HeldLock.settleBlock a slot log.length) w =
        HeldLock.createBlock a slot log.length (some (WalBlock.at off cap).range) (w.skip 2) := Prog.bind_of_ok hexist
    have hat' : LogAt a slot off status cap entries ((w.skip 2).files a.stack) := hat
    rcases createBlock_outcome hat' log.length (WalBlock.at off cap).range with
      ⟨⟨hworks, hroom⟩, p, c, hadm, t, ht, hfiles⟩ | ⟨hno, e, w', cs, hrun, hstill⟩
    · refine .inr (.inl ⟨⟨Nat.not_lt.mp hmax, .inr ⟨hlt, ?_, hroom⟩⟩, hlt, p, c, hadm, t, ?_, hfiles⟩)
      · exact World.works_add (m := 2) (n := 3).mpr ⟨hreads, hworks⟩
      · exact Prog.cuts_bind_left (hens ▸ ht)
    · refine .inr (.inr ⟨fun h => ?_, e, w', cs, Prog.bind_of_error (hens.trans hrun), hstill⟩)
      rcases h.2 with ⟨hle, -⟩ | ⟨-, hworks, hroom⟩
      · exact hfit hle
      · exact hno ⟨(World.works_add (m := 2) (n := 3).mp hworks).2, hroom⟩

end BStackRaii
