import BStackRaii.Proof.Table.Probe
/-!
# Growing a bucket table

The generator of `grow_table` reads every bucket, builds the image of a bigger table, and swaps the two.
The image is `Probing.rehash` of the entries.
-/

namespace BStackRaii

open Probing

namespace BucketTable

variable {ksize : Nat} {V : Type} {P : Payload V} {f : File} {handle size : Nat} {t : Table ksize V}

/-! ### The snapshot -/

theorem readBuckets_eval (h : Laid P f handle size t) {oldSize left i : Nat}
    (hold : t.info.cap * width P ksize ≤ oldSize) (hi : i + left ≤ t.info.cap) :
    (readBuckets t.info (width P ksize) oldSize left i).eval f =
      .ok ((List.range' i left).map fun j => f.bytes.read (t.at P j) (width P ksize)) := by
  induction left generalizing i with
  | zero => rfl
  | succ left ih =>
      have hlt : i < t.info.cap := by omega
      have hle : (i + 1) * width P ksize ≤ t.info.cap * width P ksize := Nat.mul_le_mul_right _ hlt
      rw [Nat.succ_mul] at hle
      rw [readBuckets, if_neg (by omega), h.checked_at hlt, Gen.eval_bind_ok (Gen.eval_lift f _),
        Gen.eval_bind_ok (h.bucket_read hlt), Gen.eval_bind_ok (ih (by omega))]
      rfl

/-! ### The image -/

section Image

variable {newcap : Nat} {image : Mem} {s s' : Nat → Slot (Key ksize) V}

/-- The image `image` of a table with the slots `s`. -/
def Image (P : Payload V) (newcap : Nat) (image : Mem) (s : Nat → Slot (Key ksize) V) : Prop :=
  ∀ i < newcap, Bucket P (image.read (i * width P ksize) (width P ksize)) (s i)

theorem Bucket.used_iff {buf : List UInt8} {x : Slot (Key ksize) V} (h : Bucket P buf x) :
    getU64 buf 0 = EMPTY ↔ x.isUsed = false := by
  cases x with
  | empty => simp [Slot.isUsed, show getU64 buf 0 = EMPTY from h]
  | tombstone => simp [Slot.isUsed, show getU64 buf 0 = TOMBSTONE from h, EMPTY, TOMBSTONE]
  | occupied k v =>
      have hbuf : buf = bucketImage P k v := h
      simp [Slot.isUsed, hbuf, state_bucketImage, EMPTY, OCCUPIED]

theorem image_zero (P : Payload V) (newcap : Nat) :
    Image P newcap Mem.zero (fun _ => (.empty : Slot (Key ksize) V)) := by
  intro i _
  show getU64 _ 0 = EMPTY
  rw [getU64_read (by simp only [width]; omega)]
  exact Mem.word_zero _

theorem Image.put (h : Image P newcap image s) {i : Nat} (k : Key ksize) (v : V) :
    Image P newcap (image.write (i * width P ksize) (bucketImage P k v))
      (Function.update s i (.occupied k v)) := by
  intro j hj
  by_cases hji : j = i
  · subst hji
    rw [Function.update_self]
    exact bucket_image image _ k v
  · rw [Function.update_of_ne hji, Mem.read_write_disjoint]
    · exact h j hj
    · rw [length_bucketImage]
      cases Nat.lt_or_gt_of_ne hji with
      | inl hlt =>
          left
          have hle : (j + 1) * width P ksize ≤ i * width P ksize := Nat.mul_le_mul_right _ hlt
          rwa [Nat.succ_mul] at hle
      | inr hgt =>
          right
          have hle : (i + 1) * width P ksize ≤ j * width P ksize := Nat.mul_le_mul_right _ hgt
          rwa [Nat.succ_mul] at hle

theorem vacantBucket_eq (h : Image P newcap image s) (hpow : ∃ e, newcap = 2 ^ (e + 2)) {left cur : Nat}
    (hcur : cur < newcap) :
    vacantBucket (width P ksize) newcap image left cur = vacancy newcap s left cur := by
  induction left generalizing cur with
  | zero => rfl
  | succ left ih =>
      have hused := (h cur hcur).used_iff
      rw [getU64_read (by simp only [width]; omega), Nat.add_zero] at hused
      rw [vacantBucket, vacancy, and_mask hpow, ih (Nat.mod_lt _ (by omega))]
      cases hs : (s cur).isUsed with
      | true =>
          rw [hs] at hused
          rw [if_neg (by rw [hused]; simp), if_pos rfl]
      | false => rw [if_pos (hused.mpr hs), if_neg (by simp)]

/-- A live bucket is entered under the key and the payload that it holds. -/
theorem rebuild_spec (hpow : ∃ e, newcap = 2 ^ (e + 2)) {bs : List (List UInt8)}
    {xs : List (Slot (Key ksize) V)} (hbs : List.Forall₂ (Bucket P) bs xs) (h : Image P newcap image s)
    (hs : rehash home newcap (xs.filterMap Slot.entry) s = some s') :
    ∃ image', rebuild (width P ksize) ksize newcap bs image = .ok image' ∧ Image P newcap image' s' := by
  induction hbs generalizing image s with
  | nil =>
      cases hs
      exact ⟨image, rfl, h⟩
  | @cons buf x bs xs hbuf _ ih =>
      rw [rebuild]
      cases x with
      | empty =>
          have hstate : getU64 buf 0 = EMPTY := hbuf
          rw [if_pos (by rw [hstate]; decide)]
          exact ih h hs
      | tombstone =>
          have hstate : getU64 buf 0 = TOMBSTONE := hbuf
          rw [if_pos (by rw [hstate]; decide)]
          exact ih h hs
      | occupied k v =>
          have hb : buf = bucketImage P k v := hbuf
          simp only [List.filterMap_cons, Slot.entry, rehash] at hs
          have hpos : 0 < newcap := by
            obtain ⟨e, rfl⟩ := hpow
            exact Nat.two_pow_pos _
          have hvac : vacantBucket (width P ksize) newcap image newcap (home k % newcap) =
              vacancy newcap s newcap (home k % newcap) := vacantBucket_eq h hpow (Nat.mod_lt _ hpos)
          cases hv : vacancy newcap s newcap (home k % newcap) with
          | none =>
              rw [hv] at hs
              cases hs
          | some i =>
              rw [hv] at hs hvac
              rw [if_neg (by rw [hb, state_bucketImage]; decide), hb, key_bucketImage,
                payload_bucketImage]
              dsimp only
              rw [and_mask hpow, show (fnv1a k.val).toNat = home k from rfl, hvac]
              exact ih (h.put k v) hs

end Image

/-! ### The swap -/

theorem filterMap_range (t : Table ksize V) :
    ((List.range' 0 t.info.cap).map t.slots).filterMap Slot.entry = entries t.info.cap t.slots := by
  rw [List.filterMap_map, entries, List.range_eq_range']
  rfl

theorem swapTable_stays (h : Laid P f handle size t) {newtable newcap newSize oldSize : Nat}
    (hcap : newcap ≤ t.info.cap) :
    (swapTable handle (width P ksize) ksize newtable newcap newSize oldSize).eval f = .ok ([], none) := by
  rw [swapTable, Gen.eval_bind_ok h.meta_read, if_pos hcap]
  rfl

theorem metaOf_write (m : Mem) (off : Nat) {table cap used : Nat} (ht : table < 2 ^ 64) (hc : cap < 2 ^ 64)
    (hu : used < 2 ^ 64) :
    metaOf ((((m.write off (leBytes 8 table)).write (off + 8) (leBytes 8 cap)).write (off + 24)
      (leBytes 8 used)).read off 32) = ⟨table, cap, m.word (off + 16), used⟩ := by
  have hapart : ∀ {i j : Nat} (v : Nat), i + 8 ≤ j ∨ j + 8 ≤ i →
      off + i + 8 ≤ off + j ∨ off + j + (leBytes 8 v).length ≤ off + i := by
    intro i j v h
    rw [length_leBytes]
    omega
  have h0 : (((m.write off (leBytes 8 table)).write (off + 8) (leBytes 8 cap)).write (off + 24)
      (leBytes 8 used)).word off = table := by
    rw [Mem.word_write_disjoint (hapart (i := 0) used (by omega)),
      Mem.word_write_disjoint (hapart (i := 0) cap (by omega)), Mem.word_write_self ht]
  have h8 : (((m.write off (leBytes 8 table)).write (off + 8) (leBytes 8 cap)).write (off + 24)
      (leBytes 8 used)).word (off + 8) = cap := by
    rw [Mem.word_write_disjoint (hapart used (by omega)), Mem.word_write_self hc]
  have h16 : (((m.write off (leBytes 8 table)).write (off + 8) (leBytes 8 cap)).write (off + 24)
      (leBytes 8 used)).word (off + 16) = m.word (off + 16) := by
    rw [Mem.word_write_disjoint (hapart used (by omega)), Mem.word_write_disjoint (hapart cap (by omega)),
      Mem.word_write_disjoint (.inr (by rw [length_leBytes]; omega))]
  rw [metaOf_read, h0, h8, h16, Mem.word_write_self hu]

/-- The step lemma of a swap: the entries move to the spare block, and the tombstones are dropped. -/
theorem swapTable_step (h : Tabled P f handle size t) {spare : Range} {newcap oldSize : Nat}
    (hpow : ∃ e, newcap = 2 ^ (e + 2)) (hcap : t.info.cap < newcap)
    (hold : t.info.cap * width P ksize ≤ oldSize) (hspare : spare ∈ f.live)
    (hlen : spare.len = newcap * width P ksize) (hheader : spare ≠ ⟨handle, size⟩) :
    ∃ ws t', (swapTable handle (width P ksize) ksize spare.start newcap (newcap * width P ksize) oldSize).eval f =
        .ok (ws, some (t.info.table, t.info.cap)) ∧
      (∀ x ∈ ws, Within P handle size t' x) ∧
      t'.info = ⟨spare.start, newcap, t.info.len, t.info.len⟩ ∧
      (∀ m, Maps t.info.cap t.slots m → Maps newcap t'.slots m) ∧
      Tabled P (File.writeAll ws f) handle size t' := by
  have hlaid := h.toLaid
  have hsize := h.size_le
  obtain ⟨s', hs', hp', hl', hu', hm'⟩ := h.probed.grow newcap
    (Nat.le_trans (Nat.le_trans (lenOf_le_usedOf _ _) (usedOf_le _ _)) (Nat.le_of_lt hcap))
  have hbuckets : List.Forall₂ (Bucket P)
      ((List.range' 0 t.info.cap).map fun j => f.bytes.read (t.at P j) (width P ksize))
      ((List.range' 0 t.info.cap).map t.slots) := by
    rw [List.forall₂_map_left_iff, List.forall₂_map_right_iff, List.forall₂_same]
    intro i hi
    apply h.stored i
    simpa using hi
  obtain ⟨image, himage, hstored⟩ := rebuild_spec hpow hbuckets (image_zero P newcap)
    (by rw [filterMap_range]; exact hs')
  have hinside := f.inside spare hspare
  have haddr := f.addressable
  simp only [Range.stop, hlen] at hinside
  have hapart := (apart_of_mem f.apart hspare h.header hheader).2
  simp only [Range.stop, hlen] at hapart
  have hwidth : 8 ≤ width P ksize := by
    simp only [width]
    omega
  have hcaple : newcap ≤ newcap * width P ksize := Nat.le_mul_of_pos_right _ (by omega)
  have hcaplt : newcap < 2 ^ 64 := by omega
  have hlenlt : t.info.len < 2 ^ 64 := h.toSound.len_lt hlaid.cap_lt
  refine ⟨[(spare.start, image.read 0 (newcap * width P ksize)), w8 (handle + TABLE_OFF) spare.start,
    w8 (handle + CAP_OFF) newcap, w8 (handle + USED_OFF) t.info.len],
      ⟨⟨spare.start, newcap, t.info.len, t.info.len⟩, s'⟩, ?_, ?_, rfl, hm', ?_, ?_⟩
  · rw [swapTable, Gen.eval_bind_ok hlaid.meta_read, if_neg (by omega),
      Gen.eval_bind_ok (readBuckets_eval hlaid hold (by omega)), himage,
      Gen.eval_bind_ok (Gen.eval_lift f _)]
    rfl
  · intro x hx
    simp only [List.mem_cons, List.not_mem_nil, or_false] at hx
    obtain rfl | rfl | rfl | rfl := hx
    · right
      rw [Mem.length_read]
      exact ⟨by show 0 < newcap; omega, Nat.le_refl _, Nat.le_refl _⟩
    all_goals
      left
      simp only [w8, length_leBytes, TABLE_OFF, CAP_OFF, USED_OFF, HEADER_SIZE]
      omega
  · simp only [File.writeAll, w8]
    constructor
    · exact hsize
    · exact h.header
    · have hmeta := h.info
      rw [metaOf_read] at hmeta
      show metaOf ((((f.bytes.write spare.start _).write (handle + HEADER_SIZE) _).write
        (handle + HEADER_SIZE + 8) _).write (handle + HEADER_SIZE + 24) _ |>.read _ 32) = _
      rw [metaOf_write _ _ (by omega) hcaplt hlenlt, Mem.word_write_disjoint, ← hmeta]
      rw [Mem.length_read]
      simp only [HEADER_SIZE]
      omega
    · exact .inr hpow
    · intro _
      show (⟨spare.start, newcap * width P ksize⟩ : Range) ∈ f.live
      rw [← hlen]
      exact hspare
    · show (⟨spare.start, newcap * width P ksize⟩ : Range) ≠ ⟨handle, size⟩
      rw [← hlen]
      exact hheader
    · intro i hi
      have hi' : i < newcap := hi
      have hle : (i + 1) * width P ksize ≤ newcap * width P ksize := Nat.mul_le_mul_right _ hi'
      rw [Nat.succ_mul] at hle
      simp only [File.bytes_write, Table.at]
      rw [Mem.read_write_disjoint, Mem.read_write_disjoint, Mem.read_write_disjoint,
        Mem.read_write_window _ _ _ (by rw [Mem.length_read]; exact hle), Mem.take_drop_read hle,
        Nat.zero_add]
      · exact hstored i hi'
      all_goals
        simp only [TABLE_OFF, CAP_OFF, USED_OFF, HEADER_SIZE, length_leBytes]
        omega
  · exact ⟨hp', h.len_eq.trans hl'.symm, h.len_eq.trans hu'.symm⟩

end BucketTable

end BStackRaii
