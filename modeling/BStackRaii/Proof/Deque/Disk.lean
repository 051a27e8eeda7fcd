import BStackRaii.Logic.Cyclic
import BStackRaii.Model.Deque
import BStackRaii.Proof.Update
/-!
# Rings on disk

`Holds` says which elements a deque has in a file. What a generator computes from the file is an equation on
its result and its batch, and the batch leads to the deque that the operation makes.
-/

namespace BStackRaii

namespace BStackDeque

/-- A deque: its descriptor and its elements. -/
structure Deque where
  ring : Ring
  items : List UInt64

/-- Slot `i` of the ring at `data`. -/
def slotAt (m : Mem) (data i : Nat) : UInt64 := UInt64.ofNat (m.word (data + i * 8))

/-- The deque at `handle` has the descriptor `t`. -/
structure RingAt (f : File) (handle : Nat) (t : Ring) : Prop where
  block : ⟨handle, DEQUE_SIZE⟩ ∈ f.live
  data : f.bytes.word (handle + DATA_OFF) = t.data
  cap : f.bytes.word (handle + CAP_OFF) = t.cap
  head : f.bytes.word (handle + HEAD_OFF) = t.head
  len : f.bytes.word (handle + LEN_OFF) = t.len
  len_le : t.len ≤ t.cap
  head_lt : t.head < t.cap ∨ (t.cap = 0 ∧ t.head = 0)
  apart : t.data ≠ handle
  array : (t.cap = 0 ∧ t.data = 0) ∨ (0 < t.cap ∧ ⟨t.data, t.cap * 8⟩ ∈ f.live)

/-- The deque at `handle` is `x`. -/
structure Holds (handle : Nat) (x : Deque) (f : File) : Prop where
  ring : RingAt f handle x.ring
  items : Cyclic.window (slotAt f.bytes x.ring.data) x.ring.cap x.ring.head x.ring.len = x.items

variable {f f' : File} {handle i j : Nat} {t : Ring} {x : Deque} {v : UInt64}

namespace RingAt

theorem handle_inside (h : RingAt f handle t) : 16 ≤ handle ∧ handle + 48 ≤ f.len := f.inside _ h.block

theorem array_inside (h : RingAt f handle t) (hpos : 0 < t.cap) : 16 ≤ t.data ∧ t.data + t.cap * 8 ≤ f.len := by
  rcases h.array with ⟨hzero, -⟩ | ⟨-, hlive⟩
  · omega
  · exact f.inside _ hlive

theorem arrays_apart (h : RingAt f handle t) (hpos : 0 < t.cap) :
    t.data + t.cap * 8 ≤ handle ∨ handle + 48 ≤ t.data := by
  rcases h.array with ⟨hzero, -⟩ | ⟨-, hlive⟩
  · omega
  · exact (apart_of_mem f.apart hlive h.block fun heq => h.apart (congrArg Range.start heq)).2

theorem cap_lt (h : RingAt f handle t) : t.cap * 8 < 2 ^ 64 := by
  have haddr := f.addressable
  rcases h.array with ⟨hzero, -⟩ | ⟨hpos, -⟩
  · omega
  · have hin := (h.array_inside hpos).2
    omega

theorem wrapping (h : RingAt f handle t) (hi : i ≤ t.cap) : wrappingAdd t.head i = t.head + i := by
  have hcap := h.cap_lt
  have hhead := h.head_lt
  exact Nat.mod_eq_of_lt (by omega)

theorem slotAddr_ok (h : RingAt f handle t) (hi : i < t.cap) : slotAddr t.data i = .ok (t.data + i * 8) := by
  have hin := (h.array_inside (by omega)).2
  have haddr := f.addressable
  exact checkedOffMul_ok (by omega)

theorem reads_inside (h : RingAt f handle t) : ∀ off ∈ ringReads handle, off + 8 ≤ f.len := by
  have hin := h.handle_inside
  intro off hoff
  simp only [ringReads, HEAD_OFF, LEN_OFF, CAP_OFF, DATA_OFF, HEADER_SIZE, List.mem_cons, List.not_mem_nil,
    or_false] at hoff
  omega

theorem reads (h : RingAt f handle t) : ringOf ((ringReads handle).map f.bytes.word) = t := by
  simp only [ringReads, List.map_cons, List.map_nil, ringOf, List.getD_cons_zero, List.getD_cons_succ, h.head, h.len,
    h.cap, h.data]

theorem frame (h : RingAt f handle t)
    (hkeep : ∀ r, r = ⟨handle, DEQUE_SIZE⟩ ∨ (0 < t.cap ∧ r = ⟨t.data, t.cap * 8⟩) → r ∈ f'.live ∧
      ∀ x, r.start ≤ x → x < r.stop → f'.bytes x = f.bytes x) :
    RingAt f' handle t ∧ ∀ i < t.cap, slotAt f'.bytes t.data i = slotAt f.bytes t.data i := by
  have hfield : ∀ k, k + 8 ≤ 48 → f'.bytes.word (handle + k) = f.bytes.word (handle + k) := by
    intro k hk
    refine Mem.word_congr fun x hx hx' => (hkeep _ (.inl rfl)).2 x ?_ ?_
    · show handle ≤ x
      omega
    · show x < handle + 48
      omega
  refine ⟨⟨(hkeep _ (.inl rfl)).1, ?_, ?_, ?_, ?_, h.len_le, h.head_lt, h.apart, ?_⟩, fun i hi => ?_⟩
  · exact (hfield _ (by decide)).trans h.data
  · exact (hfield _ (by decide)).trans h.cap
  · exact (hfield _ (by decide)).trans h.head
  · exact (hfield _ (by decide)).trans h.len
  · exact h.array.imp id fun ⟨hpos, _⟩ => ⟨hpos, (hkeep _ (.inr ⟨hpos, rfl⟩)).1⟩
  · apply congrArg UInt64.ofNat
    refine Mem.word_congr fun x hx hx' => (hkeep _ (.inr ⟨by omega, rfl⟩)).2 x ?_ ?_
    · show t.data ≤ x
      omega
    · show x < t.data + t.cap * 8
      omega

theorem write_slot (h : RingAt f handle t) (hi : i < t.cap) (v : UInt64) :
    RingAt (f.write (t.data + i * 8) (leBytes 8 v.toNat)) handle t ∧
      ∀ j < t.cap, slotAt (f.write (t.data + i * 8) (leBytes 8 v.toNat)).bytes t.data j =
        Function.update (slotAt f.bytes t.data) i v j := by
  have hapart := h.arrays_apart (by omega)
  have hfield : ∀ k, k + 8 ≤ 48 → (f.write (t.data + i * 8) (leBytes 8 v.toNat)).bytes.word (handle + k) =
      f.bytes.word (handle + k) := by
    intro k hk
    rw [File.bytes_write, Mem.word_write_disjoint]
    rw [length_leBytes]
    omega
  refine ⟨⟨h.block, ?_, ?_, ?_, ?_, h.len_le, h.head_lt, h.apart, h.array⟩, fun j hj => ?_⟩
  · exact (hfield _ (by decide)).trans h.data
  · exact (hfield _ (by decide)).trans h.cap
  · exact (hfield _ (by decide)).trans h.head
  · exact (hfield _ (by decide)).trans h.len
  · rw [slotAt, File.bytes_write]
    by_cases hji : j = i
    · rw [hji, Function.update_self, Mem.word_write_self v.toNat_lt, UInt64.ofNat_toNat]
    · rw [Function.update_of_ne hji, Mem.word_write_disjoint (by rw [length_leBytes]; omega)]
      rfl

end RingAt

theorem field_write {k k' n : Nat} (hk : k' = k ∨ k' + 8 ≤ k ∨ k + 8 ≤ k') (hn : n < 2 ^ 64) :
    (f.write (handle + k) (leBytes 8 n)).bytes.word (handle + k') =
    if k' = k then n else f.bytes.word (handle + k') := by
  rw [File.bytes_write]
  by_cases heq : k' = k
  · rw [if_pos heq, heq]
    exact Mem.word_write_self hn
  · rw [if_neg heq]
    exact Mem.word_write_disjoint (by rw [length_leBytes]; omega)

theorem slot_kept {k n : Nat} (h : RingAt f handle t) (hk : k + 8 ≤ 48) (hi : i < t.cap) :
    slotAt (f.write (handle + k) (leBytes 8 n)).bytes t.data i = slotAt f.bytes t.data i := by
  have hapart := h.arrays_apart (by omega)
  rw [slotAt, File.bytes_write, Mem.word_write_disjoint (by rw [length_leBytes]; omega)]
  rfl

theorem RingAt.write_len {n : Nat} (h : RingAt f handle t) (hn : n ≤ t.cap) :
    RingAt (f.write (handle + LEN_OFF) (leBytes 8 n)) handle { t with len := n } := by
  have hcap := h.cap_lt
  refine ⟨h.block, ?_, ?_, ?_, ?_, hn, h.head_lt, h.apart, h.array⟩
  · exact (field_write (.inr (.inl (by decide))) (by omega)).trans h.data
  · exact (field_write (.inr (.inl (by decide))) (by omega)).trans h.cap
  · exact (field_write (.inr (.inl (by decide))) (by omega)).trans h.head
  · exact field_write (.inl rfl) (by omega)

theorem RingAt.write_head {n : Nat} (h : RingAt f handle t) (hn : n < t.cap) :
    RingAt (f.write (handle + HEAD_OFF) (leBytes 8 n)) handle { t with head := n } := by
  have hcap := h.cap_lt
  refine ⟨h.block, ?_, ?_, ?_, ?_, h.len_le, .inl hn, h.apart, h.array⟩
  · exact (field_write (.inr (.inl (by decide))) (by omega)).trans h.data
  · exact (field_write (.inr (.inl (by decide))) (by omega)).trans h.cap
  · exact field_write (.inl rfl) (by omega)
  · exact (field_write (.inr (.inr (by decide))) (by omega)).trans h.len

theorem Holds.frame (h : Holds handle x f)
    (hkeep : ∀ r, r = ⟨handle, DEQUE_SIZE⟩ ∨ (0 < x.ring.cap ∧ r = ⟨x.ring.data, x.ring.cap * 8⟩) → r ∈ f'.live ∧
      ∀ i, r.start ≤ i → i < r.stop → f'.bytes i = f.bytes i) : Holds handle x f' := by
  obtain ⟨hring, hslots⟩ := h.ring.frame hkeep
  refine ⟨hring, (Cyclic.window_congr fun i hi => ?_).trans h.items⟩
  have hle := h.ring.len_le
  exact hslots _ (Nat.mod_lt _ (by omega))

end BStackDeque

end BStackRaii
