import BStackRaii.Proof.Wal.Block
/-!
# The log of a file

`NoLog` is a file whose anchor is null, `LogAt` one whose anchor names a live block. They say what
`existingBlock` and `load` find, and they pass over every step that stays off the block.
-/

namespace BStackRaii

theorem WalBlock.at_stop (off cap : Nat) :
    (WalBlock.at off cap).range.stop = off + WAL_HEADER_SIZE + cap * WAL_ENTRY_SIZE := by
  simp only [WalBlock.at, Range.stop]
  omega

@[simp] theorem WalBlock.at_start (off cap : Nat) : (WalBlock.at off cap).range.start = off := rfl

@[simp] theorem WalBlock.at_capacity (off cap : Nat) : (WalBlock.at off cap).capacity = cap := rfl

/-- The anchor is readable and null: no block yet. -/
structure NoLog (a : Allocator) (slot : Nat) (f : File) : Prop where
  anchor : a.walAnchor = some slot
  reserved : slot + 8 ≤ 16
  readable : 16 ≤ f.len
  null : f.bytes.word slot = 0

/-- The anchor names a live block, with this status byte, capacity and live entries. -/
structure LogAt (a : Allocator) (slot off : Nat) (status : UInt8) (cap : Nat)
    (entries : List WalEntry) (f : File) : Prop where
  anchor : a.walAnchor = some slot
  reserved : slot + 8 ≤ 16
  points : f.bytes.word slot = off
  live : (WalBlock.at off cap).range ∈ f.live
  holds : HoldsWal f.bytes off status cap entries

/-! ### Steps that stay off the log -/

section Frame

variable {a : Allocator} {slot off cap : Nat} {status : UInt8} {entries : List WalEntry} {f : File}
  {r : Range} {pos : Nat} {data : List UInt8}

theorem word_write_reserved (m : Mem) (hs : slot + 8 ≤ 16) (hpos : 16 ≤ pos) :
    (m.write pos data).word slot = m.word slot :=
  Mem.word_write_disjoint (Or.inl (Nat.le_trans hs hpos))

theorem NoLog.write (h : NoLog a slot f) (hpos : 16 ≤ pos) : NoLog a slot (f.write pos data) :=
  ⟨h.anchor, h.reserved, h.readable, by
    rw [File.bytes_write, word_write_reserved _ h.reserved hpos]
    exact h.null⟩

theorem NoLog.allocAt (h : NoLog a slot f) (hr : f.Admits r) : NoLog a slot (f.allocAt r hr) :=
  ⟨h.anchor, h.reserved, Nat.le_trans h.readable (Nat.le_max_left _ _), by
    rw [File.bytes_allocAt, word_write_reserved _ h.reserved hr.1]
    exact h.null⟩

namespace LogAt

theorem off_ge (h : LogAt a slot off status cap entries f) : 16 ≤ off :=
  (f.inside _ h.live).1

theorem stop_le (h : LogAt a slot off status cap entries f) :
    off + WAL_HEADER_SIZE + cap * WAL_ENTRY_SIZE ≤ f.len := by
  rw [← WalBlock.at_stop]
  exact (f.inside _ h.live).2

theorem entries_le (h : LogAt a slot off status cap entries f) :
    entries.length * WAL_ENTRY_SIZE ≤ cap * WAL_ENTRY_SIZE :=
  Nat.mul_le_mul_right _ h.holds.count_le

theorem live_apart (h : LogAt a slot off status cap entries f) (hr : r ∈ f.live)
    (hne : r ≠ (WalBlock.at off cap).range) :
    r.stop ≤ off ∨ off + WAL_HEADER_SIZE + cap * WAL_ENTRY_SIZE ≤ r.start := by
  have hapart := apart_of_mem f.apart hr h.live hne
  rw [← WalBlock.at_stop]
  exact hapart.2

theorem write_live (h : LogAt a slot off status cap entries f) (hr : r ∈ f.live)
    (hne : r ≠ (WalBlock.at off cap).range) (hlo : r.start ≤ pos) (hhi : pos + data.length ≤ r.stop) :
    LogAt a slot off status cap entries (f.write pos data) := by
  have hge := (f.inside r hr).1
  have hle := h.entries_le
  refine ⟨h.anchor, h.reserved, ?_, h.live, h.holds.write_outside ?_⟩
  · rw [File.bytes_write, word_write_reserved _ h.reserved (by omega)]
    exact h.points
  · rcases h.live_apart hr hne with hap | hap
    · left; omega
    · right; omega

theorem allocAt (h : LogAt a slot off status cap entries f) (hr : f.Admits r) :
    LogAt a slot off status cap entries (f.allocAt r hr) := by
  have hle := h.entries_le
  have hlen : (List.replicate r.len (0 : UInt8)).length = r.len := by simp
  have hap := (hr.2.2 _ h.live).2
  rw [WalBlock.at_stop, WalBlock.at_start, Range.stop] at hap
  refine ⟨h.anchor, h.reserved, ?_, List.mem_cons_of_mem _ h.live, h.holds.write_outside ?_⟩
  · rw [File.bytes_allocAt, word_write_reserved _ h.reserved hr.1]
    exact h.points
  · rcases hap with hap | hap
    · right; omega
    · left; omega

theorem free (h : LogAt a slot off status cap entries f) (hne : r ≠ (WalBlock.at off cap).range) :
    LogAt a slot off status cap entries (f.free r) :=
  ⟨h.anchor, h.reserved, h.points, (List.mem_erase_of_ne hne.symm).mpr h.live, h.holds⟩

/-! ### Steps on the log -/

theorem points_write (h : LogAt a slot off status cap entries f) (hpos : off ≤ pos) :
    (f.write pos data).bytes.word slot = off := by
  rw [File.bytes_write, word_write_reserved _ h.reserved (Nat.le_trans h.off_ge hpos)]
  exact h.points

theorem set_status (h : LogAt a slot off status cap entries f) (s : UInt8) :
    LogAt a slot off s cap entries (f.write (off + WAL_STATUS_OFFSET) [s]) :=
  ⟨h.anchor, h.reserved, h.points_write (Nat.le_add_right _ _), h.live, h.holds.set_status s⟩

theorem mark (h : LogAt a slot off status cap entries f) {i : Nat} (hi : i < entries.length) :
    LogAt a slot off status cap (entries.set i (HoldsWal.marked entries[i]))
      (f.write (off + WAL_HEADER_SIZE + i * WAL_ENTRY_SIZE) [WalStatus.complete.toU8]) :=
  ⟨h.anchor, h.reserved, h.points_write (by omega), h.live, h.holds.mark hi⟩

theorem write_spare (h : LogAt a slot off status cap entries f) (e : WalEntry) :
    LogAt a slot off status cap entries
      (f.write (off + WAL_HEADER_SIZE + entries.length * WAL_ENTRY_SIZE) e.encode) :=
  ⟨h.anchor, h.reserved, h.points_write (by omega), h.live, h.holds.write_spare e⟩

theorem publish (h : LogAt a slot off status cap entries f) {e : WalEntry} (he : e.Fits)
    (hroom : entries.length < cap) :
    LogAt a slot off status cap (entries ++ [e])
      ((f.write (off + WAL_HEADER_SIZE + entries.length * WAL_ENTRY_SIZE) e.encode).write
        (off + WAL_COUNT_OFFSET) (leBytes 8 (entries.length + 1))) :=
  ⟨h.anchor, h.reserved, (h.write_spare e).points_write (Nat.le_add_right _ _), h.live,
    h.holds.publish he hroom⟩

theorem image (h : LogAt a slot off status cap entries f) (st : WalStatus) {log : List WalEntry}
    (hfits : ∀ e ∈ log, e.Fits) (hle : log.length ≤ cap) :
    LogAt a slot off st.toU8 cap log (f.write off (blockImage log st cap)) :=
  ⟨h.anchor, h.reserved, h.points_write (Nat.le_refl _), h.live,
    HoldsWal.of_image _ off st hfits hle h.holds.capacity_lt⟩

end LogAt

end Frame

/-! ### What a log owes -/

/-- The slices a transaction in this state orphans. -/
def owedBy (status : WalStatus) (entries : List WalEntry) : List (Nat × Range) :=
  if status = .none then []
  else entries.filterMap fun e =>
    (HeldLock.orphan (decide (status = .complete)) e).map fun r => (e.fileId, r)

/-- The slices the log of a file still owes, each with the id of the file it lives in. -/
def owed (f : File) (slot : Nat) : List (Nat × Range) :=
  let off := f.bytes.word slot
  let header := WalHeader.decode (f.bytes.read off WAL_HEADER_SIZE)
  if off = 0 ∨ header.magic ≠ WAL_MAGIC then []
  else owedBy header.txnStatus (entriesFromBytes header.count
    (f.bytes.read (off + WAL_HEADER_SIZE) (header.count * WAL_ENTRY_SIZE)))

section Read

variable {a : Allocator} {slot off cap : Nat} {status : UInt8} {entries : List WalEntry} {f : File}
  {w : World}

theorem NoLog.owed_eq (h : NoLog a slot f) : owed f slot = [] := by
  simp only [owed, h.null, true_or, if_true]

/-- Unpacking an array of entries is reading its slots. -/
theorem entriesFromBytes_read {m : Mem} (base : Nat) {entries : List WalEntry}
    (hentry : ∀ i (hi : i < entries.length),
      WalEntry.decode (m.read (base + i * WAL_ENTRY_SIZE) WAL_ENTRY_SIZE) = entries[i]) :
    entriesFromBytes entries.length (m.read base (entries.length * WAL_ENTRY_SIZE)) = entries := by
  induction entries generalizing base with
  | nil => rfl
  | cons e es ih =>
      have hhead := hentry 0 (by simp)
      rw [Nat.zero_mul, Nat.add_zero, List.getElem_cons_zero] at hhead
      rw [List.length_cons, entriesFromBytes, Nat.succ_mul, Nat.add_comm, Mem.read_add,
        List.take_left' (Mem.length_read ..), List.drop_left' (Mem.length_read ..), hhead]
      congr 1
      refine ih (base + WAL_ENTRY_SIZE) fun i hi => ?_
      have htail := hentry (i + 1) (by simpa using hi)
      rw [Nat.succ_mul, Nat.add_comm (i * _), ← Nat.add_assoc] at htail
      exact htail

theorem HoldsWal.entries_eq {m : Mem} (h : HoldsWal m off status cap entries) :
    entriesFromBytes entries.length
      (m.read (off + WAL_HEADER_SIZE) (entries.length * WAL_ENTRY_SIZE)) = entries :=
  entriesFromBytes_read _ h.entry

theorem LogAt.owed_eq (h : LogAt a slot off status cap entries f) :
    owed f slot = owedBy (WalStatus.fromU8 status) entries := by
  have hoff : off ≠ 0 := by have := h.off_ge; omega
  simp only [owed, h.points, h.holds.header, hoff, ne_eq, not_true_eq_false, or_self, if_false,
    h.holds.entries_eq]
  rfl

/-! ### What the model reads of a log -/

theorem readAnchor_noLog (hq : w.Quiet) (h : NoLog a slot (w.files a.stack)) :
    HeldLock.readAnchor a w = ⟨.ok none, w, []⟩ := by
  have := h.readable
  have := h.reserved
  rw [HeldLock.readAnchor, h.anchor]
  simp only
  rw [Prog.bind_of_ok (readU64_run hq (by omega)), h.null]
  rfl

theorem readAnchor_logAt (hq : w.Quiet) (h : LogAt a slot off status cap entries (w.files a.stack)) :
    HeldLock.readAnchor a w = ⟨.ok (some off), w, []⟩ := by
  have hstop := h.stop_le
  have hge := h.off_ge
  have hres := h.reserved
  have hoff : off ≠ 0 := by omega
  rw [HeldLock.readAnchor, h.anchor]
  simp only
  rw [Prog.bind_of_ok (readU64_run hq (by omega)), h.points]
  simp only [if_neg hoff]
  rfl

theorem existingBlock_noLog (hq : w.Quiet) (h : NoLog a slot (w.files a.stack)) (needed : Nat) :
    HeldLock.existingBlock a needed w = ⟨.ok .absent, w, []⟩ := by
  rw [HeldLock.existingBlock, Prog.bind_of_ok (readAnchor_noLog hq h)]
  rfl

theorem existingBlock_logAt (hq : w.Quiet)
    (h : LogAt a slot off status cap entries (w.files a.stack)) (needed : Nat) :
    HeldLock.existingBlock a needed w =
      ⟨if cap > WAL_MAX_CAP then .error HeldLock.corruptWalCapacity
        else if cap ≥ needed then .ok (.fits (WalBlock.at off cap))
        else .ok (.tooSmall (WalBlock.at off cap).range), w, []⟩ := by
  have hstop := h.stop_le
  rw [HeldLock.existingBlock, Prog.bind_of_ok (readAnchor_logAt hq h)]
  simp only
  rw [Prog.bind_of_ok (getInto_run hq (by omega)), h.holds.header]
  simp only [if_true]
  split
  · rfl
  · split <;> rfl

theorem load_noLog (hq : w.Quiet) (h : NoLog a slot (w.files a.stack)) :
    HeldLock.load a w = ⟨.ok none, w, []⟩ := by
  rw [HeldLock.load, Prog.bind_of_ok (readAnchor_noLog hq h)]
  rfl

theorem load_logAt (hq : w.Quiet) (h : LogAt a slot off status cap entries (w.files a.stack))
    (hcap : cap ≤ WAL_MAX_CAP) :
    HeldLock.load a w =
      ⟨.ok (some (off, ⟨WAL_MAGIC, status, entries.length, cap⟩, entries)), w, []⟩ := by
  have hstop := h.stop_le
  have hle := h.entries_le
  have hcount := h.holds.count_le
  rw [HeldLock.load, Prog.bind_of_ok (readAnchor_logAt hq h)]
  simp only
  rw [Prog.bind_of_ok (getInto_run hq (by omega)), h.holds.header]
  simp only [ne_eq, not_true_eq_false, if_false, if_neg (show ¬ (cap > WAL_MAX_CAP ∨
    entries.length > cap) by omega)]
  rw [Prog.bind_of_ok (getInto_run hq (by omega)), h.holds.entries_eq]
  rfl

/-- A block past the trusted ceiling is refused. -/
theorem load_oversized (hq : w.Quiet) (h : LogAt a slot off status cap entries (w.files a.stack))
    (hcap : WAL_MAX_CAP < cap) :
    HeldLock.load a w = ⟨.error HeldLock.corruptWalCapacity, w, []⟩ := by
  have hstop := h.stop_le
  rw [HeldLock.load, Prog.bind_of_ok (readAnchor_logAt hq h)]
  simp only
  rw [Prog.bind_of_ok (getInto_run hq (by omega)), h.holds.header]
  simp only [ne_eq, not_true_eq_false, if_false, if_pos (Or.inl hcap)]
  rfl

end Read

end BStackRaii
