import BStackRaii.Logic.Heap
import BStackRaii.Model.Heap
import BStackRaii.Proof.Update
/-!
# Binary heaps on disk

`HeapAt` says where a heap keeps its slots. Any bytes make a slot, so the slots of a heap are a function of
its file, and a write of one slot updates this function at one place.
-/

namespace BStackRaii

namespace BStackBinaryHeap

variable {ksize : Nat}

abbrev Entry (ksize : Nat) : Type := Key ksize × UInt64

def slotImage (e : Entry ksize) : List UInt8 := e.1.val ++ leBytes 8 e.2.toNat

def slotOf (ksize : Nat) (buf : List UInt8) : Entry ksize := (readKey ksize buf, slotVal ksize buf)

theorem length_slotImage (e : Entry ksize) : (slotImage e).length = stride ksize := by
  rw [slotImage, List.length_append, length_leBytes, e.1.property, stride]

theorem readKey_val {buf : List UInt8} (hlen : ksize ≤ buf.length) : (readKey ksize buf).val = buf.take ksize := by
  have hwindow := Mem.read_write_window Mem.zero 0 buf (i := 0) (n := ksize) (by omega)
  rw [List.drop_zero] at hwindow
  exact hwindow

theorem slotOf_image (e : Entry ksize) : slotOf ksize (slotImage e) = e := by
  have hlen := length_slotImage e
  have htake : (slotImage e).take ksize = e.1.val := by
    rw [slotImage, List.take_append_of_le_length (by rw [e.1.property]), List.take_of_length_le (by rw [e.1.property])]
  have hdrop : (slotImage e).drop ksize = leBytes 8 e.2.toNat := by
    rw [slotImage, List.drop_append_of_le_length (by rw [e.1.property]), List.drop_of_length_le (by rw [e.1.property]),
      List.nil_append]
  refine Prod.ext (Subtype.ext ?_) ?_
  · show (readKey ksize (slotImage e)).val = e.1.val
    rw [readKey_val (by rw [hlen, stride]; omega), htake]
  · show UInt64.ofNat (getU64 (slotImage e) ksize) = e.2
    rw [getU64, hdrop, take_leBytes (Nat.le_refl 8), leNat_leBytes (by simpa using e.2.toNat_lt), UInt64.ofNat_toNat]

theorem image_slotOf {buf : List UInt8} (hlen : buf.length = stride ksize) : slotImage (slotOf ksize buf) = buf := by
  rw [stride] at hlen
  have hvalue : leBytes 8 (getU64 buf ksize) = buf.drop ksize := by
    have hdrop : (buf.drop ksize).length = 8 := by rw [List.length_drop]; omega
    have hback := leBytes_leNat (buf.drop ksize)
    rw [hdrop] at hback
    rw [getU64, List.take_of_length_le (by omega), hback]
  have hword : getU64 buf ksize < 2 ^ 64 := by
    have hlt := leNat_lt ((buf.drop ksize).take 8)
    have hsmall : ((buf.drop ksize).take 8).length = 8 := by
      rw [List.length_take, List.length_drop]
      omega
    rw [hsmall] at hlt
    exact hlt
  show (readKey ksize buf).val ++ leBytes 8 (UInt64.ofNat (getU64 buf ksize)).toNat = buf
  rw [readKey_val (by omega), UInt64.toNat_ofNat_of_lt' hword, hvalue, List.take_append_drop]

def slotAt (ksize : Nat) (m : Mem) (data i : Nat) : Entry ksize :=
  slotOf ksize (m.read (data + i * stride ksize) (stride ksize))

structure Info where
  data : Nat
  cap : Nat
  len : Nat

/-- The heap at `handle` has the fields `t`. -/
structure HeapAt (ksize : Nat) (f : File) (handle : Nat) (t : Info) : Prop where
  block : ⟨handle, HEAP_SIZE⟩ ∈ f.live
  data : f.bytes.word (handle + DATA_OFF) = t.data
  cap : f.bytes.word (handle + CAP_OFF) = t.cap
  len : f.bytes.word (handle + LEN_OFF) = t.len
  len_le : t.len ≤ t.cap
  apart : t.data ≠ handle
  array : (t.cap = 0 ∧ t.data = 0) ∨ (0 < t.cap ∧ ⟨t.data, t.cap * stride ksize⟩ ∈ f.live)

/-- The heap at `handle` has the fields `t` and the slots `s`. -/
def Holds (handle : Nat) (t : Info) (s : Nat → Entry ksize) (f : File) : Prop :=
  HeapAt ksize f handle t ∧ ∀ i < t.cap, slotAt ksize f.bytes t.data i = s i

section Geometry

variable {f f' : File} {handle i j n : Nat} {t : Info} {s : Nat → Entry ksize} {e : Entry ksize}

theorem stride_pos (ksize : Nat) : 0 < stride ksize := Nat.succ_pos _

theorem slots_apart (ksize data : Nat) (hne : i ≠ j) :
    data + i * stride ksize + stride ksize ≤ data + j * stride ksize ∨
      data + j * stride ksize + stride ksize ≤ data + i * stride ksize := by
  rcases Nat.lt_or_gt_of_ne hne with hlt | hgt
  · have hle := Nat.mul_le_mul_right (stride ksize) (Nat.succ_le_of_lt hlt)
    rw [Nat.succ_mul] at hle
    omega
  · have hle := Nat.mul_le_mul_right (stride ksize) (Nat.succ_le_of_lt hgt)
    rw [Nat.succ_mul] at hle
    omega

theorem slot_le (ksize : Nat) (hi : i < n) : i * stride ksize + stride ksize ≤ n * stride ksize := by
  have hle := Nat.mul_le_mul_right (stride ksize) (Nat.succ_le_of_lt hi)
  rwa [Nat.succ_mul] at hle

namespace HeapAt

theorem handle_inside (h : HeapAt ksize f handle t) : 16 ≤ handle ∧ handle + 40 ≤ f.len := f.inside _ h.block

theorem array_inside (h : HeapAt ksize f handle t) (hpos : 0 < t.cap) :
    16 ≤ t.data ∧ t.data + t.cap * stride ksize ≤ f.len := by
  rcases h.array with ⟨hzero, -⟩ | ⟨-, hlive⟩
  · omega
  · exact f.inside _ hlive

theorem arrays_apart (h : HeapAt ksize f handle t) (hpos : 0 < t.cap) :
    t.data + t.cap * stride ksize ≤ handle ∨ handle + 40 ≤ t.data := by
  rcases h.array with ⟨hzero, -⟩ | ⟨-, hlive⟩
  · omega
  · exact (apart_of_mem f.apart hlive h.block fun heq => h.apart (congrArg Range.start heq)).2

theorem slot_inside (h : HeapAt ksize f handle t) (hi : i < t.cap) :
    t.data + i * stride ksize + stride ksize ≤ f.len := by
  have hin := (h.array_inside (by omega)).2
  have hle := slot_le ksize hi
  omega

theorem slotOff_ok (h : HeapAt ksize f handle t) (hi : i < t.cap) :
    slotOff ksize t.data i = .ok (t.data + i * stride ksize) := by
  have hin := h.slot_inside hi
  have haddr := f.addressable
  exact checkedOffMul_ok (by omega)

theorem cap_lt (h : HeapAt ksize f handle t) : t.cap * stride ksize < 2 ^ 64 := by
  have haddr := f.addressable
  rcases h.array with ⟨hzero, -⟩ | ⟨hpos, -⟩
  · rw [hzero, Nat.zero_mul]
    decide
  · have hin := (h.array_inside hpos).2
    omega

theorem data_zero (h : HeapAt ksize f handle t) : t.data = 0 ↔ t.cap = 0 := by
  rcases h.array with ⟨hcap, hdata⟩ | ⟨hpos, -⟩
  · exact iff_of_true hdata hcap
  · have hin := (h.array_inside hpos).1
    exact iff_of_false (by omega) (by omega)

theorem frame (h : HeapAt ksize f handle t)
    (hkeep : ∀ r, r = ⟨handle, HEAP_SIZE⟩ ∨ (0 < t.cap ∧ r = ⟨t.data, t.cap * stride ksize⟩) → r ∈ f'.live ∧
      ∀ x, r.start ≤ x → x < r.stop → f'.bytes x = f.bytes x) :
    HeapAt ksize f' handle t ∧ ∀ i < t.cap, slotAt ksize f'.bytes t.data i = slotAt ksize f.bytes t.data i := by
  have hfield : ∀ k, k + 8 ≤ 40 → f'.bytes.word (handle + k) = f.bytes.word (handle + k) := by
    intro k hk
    refine Mem.word_congr fun x hx hx' => (hkeep _ (.inl rfl)).2 x ?_ ?_
    · show handle ≤ x
      omega
    · show x < handle + 40
      omega
  refine ⟨⟨(hkeep _ (.inl rfl)).1, ?_, ?_, ?_, h.len_le, h.apart, ?_⟩, fun i hi => ?_⟩
  · exact (hfield _ (by decide)).trans h.data
  · exact (hfield _ (by decide)).trans h.cap
  · exact (hfield _ (by decide)).trans h.len
  · exact h.array.imp id fun ⟨hpos, _⟩ => ⟨hpos, (hkeep _ (.inr ⟨hpos, rfl⟩)).1⟩
  · have hle := slot_le ksize hi
    rw [slotAt, slotAt]
    congr 1
    refine Mem.read_congr fun x hx hx' => (hkeep _ (.inr ⟨by omega, rfl⟩)).2 x ?_ ?_
    · show t.data ≤ x
      omega
    · show x < t.data + t.cap * stride ksize
      omega

end HeapAt

namespace Holds

theorem slot_read (h : Holds handle t s f) (hi : i < t.cap) :
    f.bytes.read (t.data + i * stride ksize) (stride ksize) = slotImage (s i) := by
  rw [← h.2 i hi, slotAt, image_slotOf (Mem.length_read ..)]

theorem frame (h : Holds handle t s f)
    (hkeep : ∀ r, r = ⟨handle, HEAP_SIZE⟩ ∨ (0 < t.cap ∧ r = ⟨t.data, t.cap * stride ksize⟩) → r ∈ f'.live ∧
      ∀ x, r.start ≤ x → x < r.stop → f'.bytes x = f.bytes x) : Holds handle t s f' := by
  obtain ⟨hat, hslots⟩ := h.1.frame hkeep
  exact ⟨hat, fun i hi => (hslots i hi).trans (h.2 i hi)⟩

theorem write_slot (h : Holds handle t s f) (hi : i < t.cap) (e : Entry ksize) :
    Holds handle t (Function.update s i e) (f.write (t.data + i * stride ksize) (slotImage e)) := by
  have hapart := h.1.arrays_apart (by omega)
  have hle := slot_le ksize hi
  have hfield : ∀ k, k + 8 ≤ 40 → (f.write (t.data + i * stride ksize) (slotImage e)).bytes.word (handle + k) =
      f.bytes.word (handle + k) := by
    intro k hk
    rw [File.bytes_write, Mem.word_write_disjoint]
    rw [length_slotImage]
    omega
  refine ⟨⟨h.1.block, ?_, ?_, ?_, h.1.len_le, h.1.apart, h.1.array⟩, fun j hj => ?_⟩
  · exact (hfield _ (by decide)).trans h.1.data
  · exact (hfield _ (by decide)).trans h.1.cap
  · exact (hfield _ (by decide)).trans h.1.len
  · rw [slotAt, File.bytes_write]
    by_cases hji : j = i
    · rw [hji, Function.update_self, Mem.read_write_eq _ _ (length_slotImage e), slotOf_image]
    · have hne := slots_apart ksize t.data hji
      rw [Function.update_of_ne hji, Mem.read_write_disjoint (by rw [length_slotImage]; omega)]
      exact h.2 j hj

theorem write_len (h : Holds handle t s f) (hn : n ≤ t.cap) :
    Holds handle { t with len := n } s (f.write (handle + LEN_OFF) (leBytes 8 n)) := by
  have hcap : t.cap < 2 ^ 64 := h.1.cap ▸ Mem.word_lt ..
  have hdata : DATA_OFF = 16 := rfl
  have hoff : CAP_OFF = 24 := rfl
  have hlen : LEN_OFF = 32 := rfl
  refine ⟨⟨h.1.block, ?_, ?_, ?_, hn, h.1.apart, h.1.array⟩, fun j hj => ?_⟩
  · rw [File.bytes_write, Mem.word_write_disjoint (by rw [length_leBytes]; omega)]
    exact h.1.data
  · rw [File.bytes_write, Mem.word_write_disjoint (by rw [length_leBytes]; omega)]
    exact h.1.cap
  · rw [File.bytes_write]
    exact Mem.word_write_self (by omega)
  · have hj' : j < t.cap := hj
    have hapart := h.1.arrays_apart (by omega)
    have hle := slot_le ksize hj'
    have hread : (f.bytes.write (handle + LEN_OFF) (leBytes 8 n)).read (t.data + j * stride ksize) (stride ksize) =
        f.bytes.read (t.data + j * stride ksize) (stride ksize) :=
      Mem.read_write_disjoint (by rw [length_leBytes]; omega)
    exact (congrArg (slotOf ksize) hread).trans (h.2 j hj)

end Holds

/-! ### The batch of a sift -/

def slotWrite (data : Nat) (m : Nat × Entry ksize) : Nat × List UInt8 :=
  (data + m.1 * stride ksize, slotImage m.2)

def siftBatch (data handle n : Nat) (moves : List (Nat × Entry ksize)) : Batch :=
  moves.map (slotWrite data) ++ [w8 (handle + LEN_OFF) n]

theorem Holds.write_batch {moves : List (Nat × Entry ksize)} (h : Holds handle t s f)
    (hmoves : ∀ m ∈ moves, m.1 < t.cap) (hn : n ≤ t.cap) :
    (∀ x ∈ siftBatch t.data handle n moves, x.1 + x.2.length ≤ f.len) ∧
      Holds handle { t with len := n } (Heap.place moves s) (File.writeAll (siftBatch t.data handle n moves) f) := by
  induction moves generalizing f s with
  | nil =>
      refine ⟨fun x hx => ?_, h.write_len hn⟩
      have hblock := h.1.handle_inside
      have hlen : LEN_OFF = 32 := rfl
      cases List.mem_singleton.mp hx
      simp only [w8, length_leBytes]
      omega
  | cons m moves ih =>
      have hm := hmoves m List.mem_cons_self
      obtain ⟨hin, hdone⟩ := ih (h.write_slot hm m.2) fun x hx => hmoves x (List.mem_cons_of_mem m hx)
      refine ⟨fun x hx => ?_, hdone⟩
      rcases List.mem_cons.mp hx with rfl | hx
      · simp only [slotWrite, length_slotImage]
        exact h.1.slot_inside hm
      · exact hin x hx

/-- Moves of distinct slots write distinct places. -/
theorem slotWrites_apart {moves : List (Nat × Entry ksize)} (data : Nat) (h : (moves.map Prod.fst).Nodup) :
    (moves.map (slotWrite data)).Pairwise fun x y => Mem.Clear x.1 x.2.length y := by
  rw [List.pairwise_map]
  rw [List.nodup_iff_pairwise_ne, List.pairwise_map] at h
  refine h.imp fun {x y} hne => ?_
  simp only [Mem.Clear, slotWrite, length_slotImage]
  exact slots_apart ksize data hne

end Geometry

end BStackBinaryHeap

end BStackRaii
