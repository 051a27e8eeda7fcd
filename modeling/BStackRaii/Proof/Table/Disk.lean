import BStackRaii.Logic.Probing
import BStackRaii.Proof.Update
/-!
# Bucket tables on disk

`Laid` says that the bytes of a file hold a table whose buckets are the slots `t.slots`. A table is
`Sound` when its slots satisfy the probing invariant and its counters are exact. `Tabled` is both.
-/

namespace BStackRaii

open Probing

/-- How a payload is laid out in a bucket. -/
structure Payload (V : Type) where
  size : Nat
  enc : V → List UInt8
  length_enc : ∀ v, (enc v).length = size

namespace BucketTable

variable {ksize : Nat} {V : Type} (P : Payload V)

def width (ksize : Nat) : Nat := 8 + ksize + P.size

def home (k : Key ksize) : Nat := (fnv1a k.val).toNat

def bucketImage (k : Key ksize) (v : V) : List UInt8 := leBytes 8 OCCUPIED ++ k.val ++ P.enc v

def Bucket (buf : List UInt8) : Slot (Key ksize) V → Prop
  | .empty => getU64 buf 0 = EMPTY
  | .tombstone => getU64 buf 0 = TOMBSTONE
  | .occupied k v => buf = bucketImage P k v

structure Table (ksize : Nat) (V : Type) where
  info : Meta
  slots : Nat → Slot (Key ksize) V

def Table.at (t : Table ksize V) (i : Nat) : Nat := t.info.table + i * width P ksize

def Table.block (t : Table ksize V) : Range := ⟨t.info.table, t.info.cap * width P ksize⟩

/-- The file holds `t` behind the handle block of `size` bytes at `handle`. -/
structure Laid (f : File) (handle size : Nat) (t : Table ksize V) : Prop where
  size_le : 48 ≤ size
  header : (⟨handle, size⟩ : Range) ∈ f.live
  info : metaOf (f.bytes.read (handle + HEADER_SIZE) 32) = t.info
  pow : t.info.cap = 0 ∨ ∃ e, t.info.cap = 2 ^ (e + 2)
  block : 0 < t.info.cap → t.block P ∈ f.live
  distinct : t.block P ≠ ⟨handle, size⟩
  stored : ∀ i < t.info.cap, Bucket P (f.bytes.read (t.at P i) (width P ksize)) (t.slots i)

/-- The slots satisfy the probing invariant, and the counters are exact. -/
structure Table.Sound (t : Table ksize V) : Prop where
  probed : Probed home t.info.cap t.slots
  len_eq : t.info.len = lenOf t.info.cap t.slots
  used_eq : t.info.used = usedOf t.info.cap t.slots

structure Tabled (f : File) (handle size : Nat) (t : Table ksize V) : Prop extends
  Laid P f handle size t, Table.Sound t

variable {P}

/-! ### Words of buffers -/

theorem metaOf_read (m : Mem) (off : Nat) :
    metaOf (m.read off 32) = ⟨m.word off, m.word (off + 8), m.word (off + 16), m.word (off + 24)⟩ := by
  simp only [metaOf]
  rw [getU64_read (by omega), getU64_read (by omega), getU64_read (by omega), getU64_read (by omega),
    Nat.add_zero]

theorem length_bucketImage (P : Payload V) (k : Key ksize) (v : V) :
    (bucketImage P k v).length = width P ksize := by
  simp only [bucketImage, width, List.length_append, length_leBytes, k.property, P.length_enc]

theorem state_bucketImage (P : Payload V) (k : Key ksize) (v : V) :
    getU64 (bucketImage P k v) 0 = OCCUPIED := by
  rw [bucketImage, List.append_assoc, getU64_leBytes (by decide)]

theorem key_bucketImage (P : Payload V) (k : Key ksize) (v : V) :
    ((bucketImage P k v).drop 8).take ksize = k.val := by
  rw [bucketImage, List.append_assoc, List.drop_left' (length_leBytes 8 OCCUPIED),
    List.take_left' k.property]

theorem payload_bucketImage (P : Payload V) (k : Key ksize) (v : V) :
    (bucketImage P k v).drop (8 + ksize) = P.enc v := by
  rw [bucketImage, List.drop_left' (by rw [List.length_append, length_leBytes, k.property])]

/-- Only the bucket of `k` matches its bytes. -/
theorem Bucket.matches_iff {buf : List UInt8} {x : Slot (Key ksize) V} (h : Bucket P buf x) (k : Key ksize) :
    matchesKey ksize k.val buf ↔ ∃ v, x = .occupied k v := by
  cases x with
  | empty => simp [matchesKey, show getU64 buf 0 = EMPTY from h, EMPTY, OCCUPIED]
  | tombstone => simp [matchesKey, show getU64 buf 0 = TOMBSTONE from h, TOMBSTONE, OCCUPIED]
  | occupied k' v =>
      have hbuf : buf = bucketImage P k' v := h
      rw [matchesKey, hbuf, state_bucketImage, key_bucketImage]
      simp [Subtype.ext_iff]

/-! ### The table in its file -/

namespace Laid

variable {f f' : File} {handle size : Nat} {t : Table ksize V} {i : Nat}

theorem frame (h : Laid P f handle size t)
    (hkeep : ∀ r, r = ⟨handle, size⟩ ∨ (0 < t.info.cap ∧ r = t.block P) → r ∈ f'.live ∧
      ∀ x, r.start ≤ x → x < r.stop → f'.bytes x = f.bytes x) : Laid P f' handle size t where
  size_le := h.size_le
  header := (hkeep _ (.inl rfl)).1
  info := by
    have hsize := h.size_le
    rw [← h.info]
    congr 1
    apply Mem.read_congr
    intro x hlo hhi
    apply (hkeep _ (.inl rfl)).2
    · show handle ≤ x
      omega
    · show x < handle + size
      simp only [HEADER_SIZE] at hhi
      omega
  pow := h.pow
  block := fun hcap => (hkeep _ (.inr ⟨hcap, rfl⟩)).1
  distinct := h.distinct
  stored := by
    intro i hi
    have hcap : 0 < t.info.cap := by omega
    have hbound : (i + 1) * width P ksize ≤ t.info.cap * width P ksize := Nat.mul_le_mul_right _ hi
    rw [Nat.succ_mul] at hbound
    have hsame : f'.bytes.read (t.at P i) (width P ksize) = f.bytes.read (t.at P i) (width P ksize) := by
      apply Mem.read_congr
      intro x hlo hhi
      apply (hkeep _ (.inr ⟨hcap, rfl⟩)).2
      · simp only [Table.at] at hlo
        simp only [Table.block]
        omega
      · simp only [Table.at] at hhi
        simp only [Table.block, Range.stop]
        omega
    rw [hsame]
    exact h.stored i hi

theorem header_inside (h : Laid P f handle size t) : handle + size ≤ f.len :=
  (f.inside _ h.header).2

theorem block_inside (h : Laid P f handle size t) (hcap : 0 < t.info.cap) :
    t.info.table + t.info.cap * width P ksize ≤ f.len := (f.inside _ (h.block hcap)).2

theorem at_le (t : Table ksize V) (hi : i < t.info.cap) :
    t.at P i + width P ksize ≤ t.info.table + t.info.cap * width P ksize := by
  have hbound : (i + 1) * width P ksize ≤ t.info.cap * width P ksize := Nat.mul_le_mul_right _ hi
  rw [Nat.succ_mul] at hbound
  simp only [Table.at]
  omega

theorem bucket_inside (h : Laid P f handle size t) (hi : i < t.info.cap) :
    t.at P i + width P ksize ≤ f.len :=
  Nat.le_trans (at_le t hi) (h.block_inside (by omega))

theorem cap_lt (h : Laid P f handle size t) : t.info.cap < 2 ^ 64 := by
  rw [← h.info]
  exact Mem.word_lt ..

theorem checked_at (h : Laid P f handle size t) (hi : i < t.info.cap) :
    checkedOffMul t.info.table i (width P ksize) = .ok (t.at P i) := by
  apply checkedOffMul_ok
  have hin := h.bucket_inside hi
  have haddr := f.addressable
  simp only [Table.at] at hin
  omega

theorem bucket_read (h : Laid P f handle size t) (hi : i < t.info.cap) :
    (Gen.get (t.at P i) (width P ksize)).eval f = .ok (f.bytes.read (t.at P i) (width P ksize)) :=
  Gen.eval_get (h.bucket_inside hi)

theorem meta_read (h : Laid P f handle size t) : (readMeta handle).eval f = .ok t.info := by
  have hin := h.header_inside
  have hsize := h.size_le
  rw [readMeta, Gen.eval_bind_ok (Gen.eval_get (by simp only [HEADER_SIZE]; omega)), h.info]
  rfl

theorem apart (h : Laid P f handle size t) (hcap : 0 < t.info.cap) :
    handle + size ≤ t.info.table ∨ t.info.table + t.info.cap * width P ksize ≤ handle :=
  (apart_of_mem f.apart h.header (h.block hcap) (Ne.symm h.distinct)).2

/-! ### Writes -/

theorem put (h : Laid P f handle size t) (hi : i < t.info.cap) {off : Nat} (data : List UInt8)
    (x : Slot (Key ksize) V) (hlo : t.at P i ≤ off) (hhi : off + data.length ≤ t.at P i + width P ksize)
    (hx : Bucket P ((f.bytes.write off data).read (t.at P i) (width P ksize)) x) :
    Laid P (f.write off data) handle size { t with slots := Function.update t.slots i x } where
  size_le := h.size_le
  header := h.header
  info := by
    have hsize := h.size_le
    have hend := at_le (P := P) t hi
    have hstart : t.info.table ≤ t.at P i := Nat.le_add_right _ _
    rw [File.bytes_write, Mem.read_write_disjoint, h.info]
    simp only [HEADER_SIZE]
    cases h.apart (by omega) with
    | inl hl => left; omega
    | inr hr => right; omega
  pow := h.pow
  block := h.block
  distinct := h.distinct
  stored := by
    intro j hj
    show Bucket P ((f.bytes.write off data).read (t.at P j) (width P ksize))
      (Function.update t.slots i x j)
    by_cases hji : j = i
    · subst hji
      rw [Function.update_self]
      exact hx
    · rw [Function.update_of_ne hji]
      have hother : (f.bytes.write off data).read (t.at P j) (width P ksize) =
          f.bytes.read (t.at P j) (width P ksize) := by
        apply Mem.read_write_disjoint
        simp only [Table.at] at hlo hhi ⊢
        rcases Nat.lt_or_gt_of_ne hji with hlt | hgt
        · left
          have hle : (j + 1) * width P ksize ≤ i * width P ksize := Nat.mul_le_mul_right _ hlt
          rw [Nat.succ_mul] at hle
          omega
        · right
          have hle : (i + 1) * width P ksize ≤ j * width P ksize := Nat.mul_le_mul_right _ hgt
          rw [Nat.succ_mul] at hle
          omega
      rw [hother]
      exact h.stored j hj

theorem setInfo (h : Laid P f handle size t) {off : Nat} {data : List UInt8} {info : Meta}
    (hlo : handle ≤ off) (hhi : off + data.length ≤ handle + size) (htable : info.table = t.info.table)
    (hcap : info.cap = t.info.cap)
    (hinfo : metaOf ((f.bytes.write off data).read (handle + HEADER_SIZE) 32) = info) :
    Laid P (f.write off data) handle size { t with info } := by
  have hblock : Table.block P { t with info } = t.block P := by simp only [Table.block, htable, hcap]
  refine ⟨h.size_le, h.header, hinfo, hcap ▸ h.pow, ?_, hblock ▸ h.distinct, ?_⟩
  · intro hpos
    rw [hblock]
    exact h.block (hcap ▸ hpos)
  · intro i hi
    have hi' : i < t.info.cap := hcap ▸ hi
    have hat : Table.at P { t with info } i = t.at P i := by simp only [Table.at, htable]
    have hend := at_le (P := P) t hi'
    have hstart : t.info.table ≤ t.at P i := Nat.le_add_right _ _
    rw [hat, File.bytes_write, Mem.read_write_disjoint]
    · exact h.stored i hi'
    · cases h.apart (by omega) with
      | inl hl => right; omega
      | inr hr => left; omega

theorem setLen (h : Laid P f handle size t) {n : Nat} (hn : n < 2 ^ 64) :
    Laid P (f.write (handle + LEN_OFF) (leBytes 8 n)) handle size
      { t with info := { t.info with len := n } } := by
  have hsize := h.size_le
  apply h.setInfo
  · omega
  · simp only [LEN_OFF, HEADER_SIZE, length_leBytes]
    omega
  · rfl
  · rfl
  · rw [← h.info, metaOf_read, metaOf_read, Mem.word_write_disjoint, Mem.word_write_disjoint,
      show handle + HEADER_SIZE + 16 = handle + LEN_OFF from rfl, Mem.word_write_self hn,
      Mem.word_write_disjoint] <;> simp only [LEN_OFF, HEADER_SIZE, length_leBytes] <;> omega

theorem setUsed (h : Laid P f handle size t) {n : Nat} (hn : n < 2 ^ 64) :
    Laid P (f.write (handle + USED_OFF) (leBytes 8 n)) handle size
      { t with info := { t.info with used := n } } := by
  have hsize := h.size_le
  apply h.setInfo
  · omega
  · simp only [USED_OFF, HEADER_SIZE, length_leBytes]
    omega
  · rfl
  · rfl
  · rw [← h.info, metaOf_read, metaOf_read, Mem.word_write_disjoint, Mem.word_write_disjoint,
      Mem.word_write_disjoint, show handle + HEADER_SIZE + 24 = handle + USED_OFF from rfl,
      Mem.word_write_self hn] <;> simp only [USED_OFF, HEADER_SIZE, length_leBytes] <;> omega

end Laid

/-! ### The ring -/

theorem maskOf_eq {cap : Nat} (hpos : 0 < cap) (hcap : cap < 2 ^ 64) : maskOf cap = cap - 1 :=
  wrappingPred_eq hpos hcap

theorem and_mask {cap : Nat} (hpow : ∃ e, cap = 2 ^ (e + 2)) (x : Nat) : x &&& (cap - 1) = x % cap := by
  obtain ⟨e, rfl⟩ := hpow
  exact Nat.and_two_pow_sub_one_eq_mod x (e + 2)

end BucketTable

end BStackRaii
