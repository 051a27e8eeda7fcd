import BStackRaii.Model.Wal
/-!
# The bytes of a log block

`HoldsWal` reads a block as its header and its live entries. Each write of the model to a block has
one rule here, so that nothing above looks at bytes again.
-/

namespace BStackRaii

/-! ### Records in memory -/

theorem WalHeader.decode_read (m : Mem) (off : Nat) :
    WalHeader.decode (m.read off WAL_HEADER_SIZE) =
      ⟨m.word off, m (off + 8), m.word (off + 16), m.word (off + 24)⟩ := by
  have htake : (m.read off 32).take 8 = m.read off 8 := Mem.take_drop_read (i := 0) (by omega)
  simp only [WalHeader.decode, WAL_HEADER_SIZE, htake, Mem.head_drop_read (show 8 < 32 by omega),
    Mem.take_drop_read (show 16 + 8 ≤ 32 by omega), Mem.take_drop_read (show 24 + 8 ≤ 32 by omega)]
  rfl

theorem WalEntry.decode_read (m : Mem) (off : Nat) :
    WalEntry.decode (m.read off WAL_ENTRY_SIZE) =
      ⟨m off, m (off + 1), leNat (m.read (off + 8) 4), m.word (off + 16), m.word (off + 24)⟩ := by
  simp only [WalEntry.decode, WAL_ENTRY_SIZE, Mem.head_drop_read (show 1 < 32 by omega),
    Mem.take_drop_read (show 8 + 4 ≤ 32 by omega), Mem.take_drop_read (show 16 + 8 ≤ 32 by omega),
    Mem.take_drop_read (show 24 + 8 ≤ 32 by omega)]
  rfl

@[simp] theorem WalHeader.length_encode (h : WalHeader) : h.encode.length = WAL_HEADER_SIZE := by
  simp [WalHeader.encode, WAL_HEADER_SIZE]

@[simp] theorem WalEntry.length_encode (e : WalEntry) : e.encode.length = WAL_ENTRY_SIZE := by
  simp [WalEntry.encode, WAL_ENTRY_SIZE]

/-- The fields fit their on-disk words. -/
structure WalEntry.Fits (e : WalEntry) : Prop where
  fileId : e.fileId < 2 ^ 32
  wordA : e.wordA < 2 ^ 64
  wordB : e.wordB < 2 ^ 64

theorem WalEntry.decode_encode {e : WalEntry} (he : e.Fits) : WalEntry.decode e.encode = e := by
  have hid : leNat (leBytes 4 e.fileId) = e.fileId := leNat_leBytes (by simpa using he.fileId)
  have ha : leNat (leBytes 8 e.wordA) = e.wordA := leNat_leBytes (by simpa using he.wordA)
  have hb : leNat (leBytes 8 e.wordB) = e.wordB := leNat_leBytes (by simpa using he.wordB)
  simp [WalEntry.decode, WalEntry.encode, List.drop_append, List.headD_eq_head?_getD,
    List.replicate, hid, ha, hb]

theorem WalHeader.decode_encode {h : WalHeader} (hm : h.magic < 2 ^ 64) (hc : h.count < 2 ^ 64)
    (hcap : h.capacity < 2 ^ 64) : WalHeader.decode h.encode = h := by
  have h1 : leNat (leBytes 8 h.magic) = h.magic := leNat_leBytes (by simpa using hm)
  have h2 : leNat (leBytes 8 h.count) = h.count := leNat_leBytes (by simpa using hc)
  have h3 : leNat (leBytes 8 h.capacity) = h.capacity := leNat_leBytes (by simpa using hcap)
  simp [WalHeader.decode, WalHeader.encode, List.drop_append,
    List.headD_eq_head?_getD, List.replicate, h1, h2, h3]

/-! ### A block in memory -/

/-- The block at `off` has `cap` slots, the transaction status byte `status`, and these live entries. -/
structure HoldsWal (m : Mem) (off : Nat) (status : UInt8) (cap : Nat) (entries : List WalEntry) :
    Prop where
  header : WalHeader.decode (m.read off WAL_HEADER_SIZE) = ⟨WAL_MAGIC, status, entries.length, cap⟩
  entry : ∀ i (hi : i < entries.length),
    WalEntry.decode (m.read (off + WAL_HEADER_SIZE + i * WAL_ENTRY_SIZE) WAL_ENTRY_SIZE) = entries[i]
  count_le : entries.length ≤ cap

namespace HoldsWal

variable {m m' : Mem} {off cap n : Nat} {status : UInt8} {entries : List WalEntry}

theorem capacity_lt (h : HoldsWal m off status cap entries) : cap < 2 ^ 64 := by
  have hcap := congrArg WalHeader.capacity h.header
  rw [WalHeader.decode_read] at hcap
  simp only at hcap
  exact hcap ▸ Mem.word_lt m (off + 24)

/-- A block is read from its header and its live slots only. -/
theorem congr (h : HoldsWal m off status cap entries)
    (hm : ∀ a, off ≤ a → a < off + WAL_HEADER_SIZE + entries.length * WAL_ENTRY_SIZE → m' a = m a) :
    HoldsWal m' off status cap entries := by
  refine ⟨?_, fun i hi => ?_, h.count_le⟩
  · rw [Mem.read_congr fun a h1 h2 => hm a h1 (by omega)]
    exact h.header
  · have hslot : i * WAL_ENTRY_SIZE + WAL_ENTRY_SIZE ≤ entries.length * WAL_ENTRY_SIZE := by
      rw [← Nat.succ_mul]
      exact Nat.mul_le_mul_right _ hi
    rw [Mem.read_congr fun a h1 h2 => hm a (by omega) (by omega)]
    exact h.entry i hi

theorem write_outside (h : HoldsWal m off status cap entries) {at_ : Nat} {data : List UInt8}
    (hout : at_ + data.length ≤ off ∨ off + WAL_HEADER_SIZE + entries.length * WAL_ENTRY_SIZE ≤ at_) :
    HoldsWal (m.write at_ data) off status cap entries := by
  refine h.congr fun a h1 h2 => ?_
  rcases hout with hout | hout
  · exact Mem.write_of_ge (by omega)
  · exact Mem.write_of_lt (by omega)

/-- The image of a log reads back as the log. -/
theorem of_image (m : Mem) (off : Nat) (st : WalStatus) {log : List WalEntry}
    (hfits : ∀ e ∈ log, e.Fits) (hle : log.length ≤ cap) (hcap : cap < 2 ^ 64) :
    HoldsWal (m.write off (blockImage log st cap)) off st.toU8 cap log := by
  have hrecords := length_records WalEntry.encode WalEntry.length_encode log
  have hlen : (blockImage log st cap).length = WAL_HEADER_SIZE + log.length * WAL_ENTRY_SIZE := by
    rw [blockImage, List.length_append, WalHeader.length_encode, hrecords]
  refine ⟨?_, fun i hi => ?_, hle⟩
  · have hread := Mem.read_write_window m off (blockImage log st cap) (i := 0)
      (n := WAL_HEADER_SIZE) (by omega)
    rw [Nat.add_zero] at hread
    rw [hread, List.drop_zero, blockImage, List.take_left' (WalHeader.length_encode _)]
    refine WalHeader.decode_encode ?_ ?_ hcap
    · simp only [WAL_MAGIC]
      omega
    · simp only
      omega
  · have hslot : i * WAL_ENTRY_SIZE + WAL_ENTRY_SIZE ≤ log.length * WAL_ENTRY_SIZE := by
      rw [← Nat.succ_mul]
      exact Nat.mul_le_mul_right _ hi
    rw [Nat.add_assoc, Mem.read_write_window _ _ _ (by omega), blockImage, ← List.drop_drop,
      List.drop_left' (WalHeader.length_encode _), take_drop_records WalEntry.encode WalEntry.length_encode log hi]
    exact WalEntry.decode_encode (hfits _ (List.getElem_mem hi))

theorem set_status (h : HoldsWal m off status cap entries) (s : UInt8) :
    HoldsWal (m.write (off + WAL_STATUS_OFFSET) [s]) off s cap entries := by
  have hlen : ([s] : List UInt8).length = 1 := rfl
  simp only [WAL_STATUS_OFFSET]
  refine ⟨?_, fun i hi => ?_, h.count_le⟩
  · have hh := h.header
    rw [WalHeader.decode_read] at hh ⊢
    have hs : m.write (off + 8) [s] (off + 8) = s :=
      Mem.write_at m (off + 8) [s] (i := 0) (by omega)
    rw [hs, Mem.word_write_disjoint (by omega), Mem.word_write_disjoint (by omega),
      Mem.word_write_disjoint (by omega)]
    simp only [WalHeader.mk.injEq] at hh ⊢
    exact ⟨hh.1, trivial, hh.2.2⟩
  · rw [Mem.read_write_disjoint (by simp only [WAL_HEADER_SIZE]; omega)]
    exact h.entry i hi

def marked (e : WalEntry) : WalEntry := { e with statusByte := WalStatus.complete.toU8 }

theorem mark (h : HoldsWal m off status cap entries) {i : Nat} (hi : i < entries.length) :
    HoldsWal (m.write (off + WAL_HEADER_SIZE + i * WAL_ENTRY_SIZE) [WalStatus.complete.toU8]) off
      status cap (entries.set i (marked entries[i])) := by
  have hlen : ([WalStatus.complete.toU8] : List UInt8).length = 1 := rfl
  refine ⟨?_, fun j hj => ?_, by simpa using h.count_le⟩
  · rw [Mem.read_write_disjoint (by omega), List.length_set]
    exact h.header
  · rw [List.length_set] at hj
    by_cases hij : i = j
    · subst hij
      have he := h.entry i hi
      rw [WalEntry.decode_read] at he
      have hs := Mem.write_at m (off + WAL_HEADER_SIZE + i * WAL_ENTRY_SIZE)
        [WalStatus.complete.toU8] (i := 0) (by omega)
      simp only [Nat.add_zero, List.getElem_cons_zero] at hs
      rw [WalEntry.decode_read, hs, Mem.write_of_ge (by omega), Mem.read_write_disjoint (by omega),
        Mem.word_write_disjoint (by omega), Mem.word_write_disjoint (by omega), List.getElem_set_self,
        marked, ← he]
    · have hapart : i * WAL_ENTRY_SIZE + WAL_ENTRY_SIZE ≤ j * WAL_ENTRY_SIZE ∨
          j * WAL_ENTRY_SIZE + WAL_ENTRY_SIZE ≤ i * WAL_ENTRY_SIZE := by
        rcases Nat.lt_or_gt_of_ne hij with hlt | hlt
        · left
          rw [← Nat.succ_mul]
          exact Nat.mul_le_mul_right _ hlt
        · right
          rw [← Nat.succ_mul]
          exact Nat.mul_le_mul_right _ hlt
      have hsize : 0 < WAL_ENTRY_SIZE := by decide
      rw [Mem.read_write_disjoint (by omega), List.getElem_set_ne hij]
      exact h.entry j hj

theorem write_spare (h : HoldsWal m off status cap entries) (e : WalEntry) :
    HoldsWal (m.write (off + WAL_HEADER_SIZE + entries.length * WAL_ENTRY_SIZE) e.encode) off status
      cap entries :=
  h.write_outside (Or.inr (Nat.le_refl _))

/-- The bump of `count` publishes the entry written beyond the live ones. -/
theorem publish (h : HoldsWal m off status cap entries) {e : WalEntry} (he : e.Fits)
    (hroom : entries.length < cap) :
    HoldsWal ((m.write (off + WAL_HEADER_SIZE + entries.length * WAL_ENTRY_SIZE) e.encode).write
      (off + WAL_COUNT_OFFSET) (leBytes 8 (entries.length + 1))) off status cap (entries ++ [e]) := by
  have hcap := h.capacity_lt
  have hspare := h.write_spare e
  have hread := Mem.read_write_eq m
    (off + WAL_HEADER_SIZE + entries.length * WAL_ENTRY_SIZE) e.length_encode
  generalize m.write (off + WAL_HEADER_SIZE + entries.length * WAL_ENTRY_SIZE) e.encode = m' at *
  have hlen : (leBytes 8 (entries.length + 1)).length = 8 := by simp
  have hconst : WAL_COUNT_OFFSET + 8 ≤ WAL_HEADER_SIZE := by decide
  refine ⟨?_, fun i hi => ?_, by simp only [List.length_append, List.length_singleton]; omega⟩
  · have hh := hspare.header
    rw [WalHeader.decode_read] at hh ⊢
    simp only [WAL_COUNT_OFFSET] at *
    have hs : (m'.write (off + 16) (leBytes 8 (entries.length + 1))) (off + 8) = m' (off + 8) :=
      Mem.write_of_lt (by omega)
    rw [hs, Mem.word_write_disjoint (by omega), Mem.word_write_self (by omega),
      Mem.word_write_disjoint (by omega), List.length_append, List.length_singleton]
    simp only [WalHeader.mk.injEq] at hh ⊢
    exact ⟨hh.1, hh.2.1, trivial, hh.2.2.2⟩
  · rw [Mem.read_write_disjoint (by omega)]
    rw [List.length_append, List.length_singleton] at hi
    by_cases hlast : i = entries.length
    · subst hlast
      rw [hread, List.getElem_concat_length rfl]
      exact WalEntry.decode_encode he
    · rw [List.getElem_append_left (by omega)]
      exact hspare.entry i (by omega)

end HoldsWal

end BStackRaii
