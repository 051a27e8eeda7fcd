import BStackRaii.Proof.Table.Rounds
/-!
# Maps and sets on any bytes

Whatever the bytes of a file are, a lookup, an iteration, a teardown and a clone of a map or a set end with a value or
an error. A growth does where the live keys have room in the groups of the new table, a removal where there is an
entry to count down, and an insertion where each of its rounds does.
-/

namespace BStackRaii

open BucketTable

theorem ends_tableBytes (a : Allocator) (stride cap : Nat) {overflow tooBig : IoError} (ho : ¬ Wedged overflow)
    (ht : ¬ Wedged tooBig) : Ends (Checked.tableBytes a stride cap overflow tooBig) := by
  refine Ends.bind (.lift fun e he => ?_) fun size => (ends_stackLen _).bind fun total =>
    .ite (fun _ => .fail ht) fun _ => .pure _
  split at he
  · cases he
  · cases he
    exact ho

theorem tableBytes_ok {a : Allocator} {stride cap size : Nat} {overflow tooBig : IoError} {w : World}
    (h : (Checked.tableBytes a stride cap overflow tooBig w).out = .ok size) : size = cap * stride ∧ size < 2 ^ 64 := by
  obtain ⟨bytes, hsize, h, -⟩ := Prog.bind_ok_inv h
  obtain ⟨total, -, h, -⟩ := Prog.bind_ok_inv h
  split at h
  · cases h
  · cases h
    split at hsize
    · rename_i hlt
      cases hsize
      exact ⟨rfl, hlt⟩
    · cases hsize

/-! ### Maps -/

namespace BStackHashMap

variable {ksize : Nat} {a : Allocator} {handle : Nat}

theorem shape (h : stride ksize < 2 ^ 63) : Checked.Shape (stride ksize) ksize (taken ksize) where
  fits := by
    simp only [stride]
    omega
  small := h
  taken := by
    intro buf hbuf
    simp only [stride] at h hbuf
    rw [taken, plus_ok (by omega), except_ok_bind, plus_ok (by omega), except_ok_bind, slice_ok (by omega) (by omega),
      Nat.add_sub_cancel_left, List.take_of_length_le (by rw [List.length_drop]; omega)]

theorem checkedOverwrite_eq (h : stride ksize < 2 ^ 63) (valRef : UInt64) (m : Meta) (idx : Nat) :
    checkedOverwrite ksize valRef m idx = overwrite ksize valRef m idx := by
  simp only [stride] at h
  rw [checkedOverwrite, overwrite]
  cases checkedOffMul m.table idx (stride ksize) with
  | error e => rfl
  | ok b => rw [except_ok_bind, except_ok_bind, plus_ok (by omega), except_ok_bind]

theorem overwrite_calm (valRef : UInt64) (m : Meta) (idx : Nat) {e : IoError}
    (h : overwrite ksize valRef m idx = .error e) :
    ¬ Wedged e := by
  rw [overwrite] at h
  cases hoff : checkedOffMul m.table idx (stride ksize) with
  | error x =>
      rw [hoff] at h
      cases h
      exact checkedOffMul_calm hoff
  | ok b =>
      rw [hoff, except_ok_bind] at h
      cases hval : checkedOff b (8 + ksize) with
      | error x =>
          rw [hval] at h
          cases h
          rw [checkedOff] at hval
          split at hval
          · cases hval
          · cases hval
            decide
      | ok off =>
          rw [hval] at h
          cases h

theorem checkedItem_ok (h : stride ksize < 2 ^ 63) : Checked.Itemed (stride ksize) (checkedItem ksize) := by
  intro buf hbuf
  simp only [stride] at h hbuf
  rw [checkedItem, plus_ok (by omega), except_ok_bind, slice_ok (by omega) (by omega), except_ok_bind,
    wordAt_ok (by omega) (by omega)]
  exact ⟨_, rfl⟩

theorem bucket_words {image : List UInt8} {cap j : Nat} (himage : image.length = cap * stride ksize)
    (hlt : image.length < 2 ^ 64) (hj : j < cap) :
    times j (stride ksize) = .ok (j * stride ksize) ∧
      wordAt image (j * stride ksize) = .ok (getU64 image (j * stride ksize)) ∧
      valueAt ksize (j * stride ksize) = .ok (j * stride ksize + (8 + ksize)) ∧
      wordAt image (j * stride ksize + (8 + ksize)) = .ok (getU64 image (j * stride ksize + (8 + ksize))) ∧
      j * stride ksize + (8 + ksize) + 8 ≤ image.length := by
  have hle : (j + 1) * stride ksize ≤ cap * stride ksize := Nat.mul_le_mul_right _ hj
  rw [Nat.succ_mul, ← himage] at hle
  have hstride : stride ksize = 16 + ksize := rfl
  refine ⟨times_ok (by omega), wordAt_ok (by omega) (by omega), ?_, wordAt_ok (by omega) (by omega), by omega⟩
  rw [valueAt, plus_ok (by omega), except_ok_bind, plus_ok (by omega), Nat.add_assoc]

theorem ends_dropValues {dropValue : Nat → Io Unit} (hdrop : ∀ v, Ends (dropValue v)) {image : List UInt8} {cap : Nat}
    (himage : image.length = cap * stride ksize) (hlt : image.length < 2 ^ 64) (left : Nat) {j : Nat}
    (hj : j + left = cap) : Ends (dropValues ksize dropValue image left j) := by
  induction left generalizing j with
  | zero => exact .pure ()
  | succ left ih =>
      obtain ⟨hlo, hstate, hoff, hword, -⟩ := bucket_words himage hlt (j := j) (by omega)
      rw [dropValues, hlo, Prog.lift_ok, pure_bind, hstate, Prog.lift_ok, pure_bind]
      refine .ite (fun _ => ?_) fun _ => ih (by omega)
      rw [hoff, Prog.lift_ok, pure_bind, hword, Prog.lift_ok, pure_bind]
      have hrest : Ends (dropValues ksize dropValue image left (j + 1)) := ih (by omega)
      exact .ite (fun _ => (hdrop _).bind fun _ => hrest) fun _ => (Ends.pure ()).bind fun _ => hrest

theorem ends_dropChildren {dropValue : Nat → Io Unit} {dealloc : Range → Io Unit} (hdrop : ∀ v, Ends (dropValue v))
    (hdealloc : ∀ r, Ends (dealloc r)) : Ends (dropChildren ksize a handle dropValue dealloc) := by
  refine (ends_readFields _ _ _).bind fun fields => .ite (fun _ => .pure ()) fun _ => ?_
  intro w
  refine EndsAt.bind (ends_tableBytes _ _ _ (by decide) (by decide) w) fun size hsize => ?_
  obtain ⟨hbytes, hlt⟩ := tableBytes_ok hsize
  refine EndsAt.bind (ends_getInto _ _ _ _) fun image himage => ?_
  have hlen := getInto_length himage
  exact ((ends_dropValues hdrop (hlen.trans hbytes) (hlen ▸ hlt) _ (Nat.zero_add _)).bind fun _ => hdealloc _) _

theorem length_splice {buf bytes out : List UInt8} {lo : Nat} (h : splice buf lo bytes = .ok out) :
    out.length = buf.length := by
  rw [splice] at h
  split at h
  · cases h
    simp only [List.length_append, List.length_take, List.length_drop]
    omega
  · cases h

theorem ends_cloneValues {cloneValue : Nat → Prog IoError (Batch × World) Nat} (hclone : ∀ v, Ends (cloneValue v))
    {cap : Nat} (left : Nat) {j : Nat} (hj : j + left = cap) {image : List UInt8}
    (himage : image.length = cap * stride ksize) (hlt : image.length < 2 ^ 64) :
    Ends (cloneValues ksize cloneValue left j image) := by
  induction left generalizing j image with
  | zero => exact .pure image
  | succ left ih =>
      obtain ⟨hlo, hstate, hoff, hword, hfits⟩ := bucket_words himage hlt (j := j) (by omega)
      rw [cloneValues, hlo, Prog.lift_ok, pure_bind, hstate, Prog.lift_ok, pure_bind]
      refine .ite (fun _ => ih (by omega) himage hlt) fun _ => ?_
      rw [hoff, Prog.lift_ok, pure_bind, hword, Prog.lift_ok, pure_bind]
      refine (hclone _).bind fun cloned => ?_
      have hfits' : j * stride ksize + (8 + ksize) + (leBytes 8 cloned).length ≤ image.length := by
        rw [length_leBytes]
        exact hfits
      have hsplice := splice_ok hfits'
      have hlen := length_splice hsplice
      rw [hsplice, Prog.lift_ok, pure_bind]
      exact ih (by omega) (hlen.trans himage) (by rw [hlen]; exact hlt)

theorem ends_cloneChildren {tag : UInt64} {cloneValue allocRaw : Nat → Prog IoError (Batch × World) Nat}
    (hclone : ∀ v, Ends (cloneValue v)) (halloc : ∀ n, Ends (allocRaw n)) :
    Ends (cloneChildren ksize a handle tag cloneValue allocRaw) := by
  refine (ends_readFields _ _ _).onSnd.bind fun fields => ?_
  dsimp only
  refine .ite (fun _ => (Ends.pure _).bind fun _ => .pure _) fun _ => ?_
  intro s
  refine EndsAt.bind ((ends_tableBytes _ _ _ (by decide) (by decide)).onSnd s) fun size hsize => ?_
  obtain ⟨hbytes, hlt⟩ := tableBytes_ok hsize
  refine EndsAt.bind ((ends_getInto _ _ _).onSnd _) fun image himage => ?_
  have hlen : image.length = size := getInto_length himage
  exact ((ends_cloneValues hclone _ (Nat.zero_add _) (hlen.trans hbytes) (hlen ▸ hlt)).bind fun _ =>
    (halloc _).bind fun _ => (Ends.onFst _).bind fun _ => (Ends.pure _).bind fun _ => .pure _) _

/-! ### The calls of a map -/

section Calls

variable {w : World}

/-- An insertion into a map ends exactly if each of its rounds fits. -/
theorem insert_ends_iff (h : stride ksize < 2 ^ 63) {attempts : Nat} (hattempts : 61 ≤ attempts) (key : Key ksize)
    (valRef : UInt64) : EndsAt (checkedInsert ksize a handle attempts key valRef) w ↔
      ∀ v, Comes a (newEntry handle key valRef) (taken ksize) (checkedOverwrite ksize valRef) w v →
        RoundFits a (newEntry handle key valRef) (overwrite ksize valRef) v :=
  insertLoop_ends_iff (shape h) (checkedOverwrite_eq h valRef) (fun m idx _ hx => overwrite_calm valRef m idx hx)
    (enough_of_le hattempts _)

end Calls

end BStackHashMap

/-! ### Sets -/

namespace BStackHashSet

variable {ksize : Nat} {a : Allocator} {handle : Nat} {w : World}

theorem shape (h : stride ksize < 2 ^ 63) : Checked.Shape (stride ksize) ksize taken where
  fits := Nat.le_refl _
  small := h
  taken := by
    intro buf hbuf
    have hnil : buf.drop (8 + ksize) = [] := List.drop_eq_nil_of_le (Nat.le_of_eq hbuf)
    rw [taken, hnil]

theorem checkedItem_ok (h : stride ksize < 2 ^ 63) : Checked.Itemed (stride ksize) (checkedItem ksize) := by
  intro buf hbuf
  simp only [stride] at h hbuf
  rw [checkedItem, plus_ok (by omega), except_ok_bind, slice_ok (by omega) (by omega)]
  exact ⟨_, rfl⟩

theorem tableInsert_ends_iff (h : stride ksize < 2 ^ 63) {attempts : Nat} (hattempts : 61 ≤ attempts)
    (keyBytes : List UInt8) : EndsAt (tableInsert ksize a handle attempts keyBytes) w ↔
      ∀ v, Comes a (newEntry ksize handle keyBytes) taken keep w v →
      RoundFits a (newEntry ksize handle keyBytes) keep v := by
  rw [tableInsert, endsAt_bind_iff, insertLoop_ends_iff (shape h) (fun _ _ => rfl) (fun m idx x hx => by cases hx)
    (enough_of_le hattempts _)]
  exact and_iff_left fun _ _ => endsAt_pure _ _

theorem tableRemove_ends_iff (h : stride ksize < 2 ^ 63) (keyBytes : List UInt8) :
    EndsAt (tableRemove ksize a handle keyBytes) w ↔
      (FindsKey a.stack handle (stride ksize) ksize keyBytes w → (metaAt a.stack handle w).len ≠ 0) := by
  rw [tableRemove, endsAt_bind_iff, removeKey_ends_iff (shape h)]
  exact and_iff_left fun _ _ => endsAt_pure _ _

theorem ends_tableContains (h : stride ksize < 2 ^ 63) (keyBytes : List UInt8) :
    Ends (tableContains ksize a handle keyBytes) := (Checked.ends_lookup (shape h)).bind fun _ => .pure _

theorem ends_dropChildren {dealloc : Range → Io Unit} (hdealloc : ∀ r, Ends (dealloc r)) :
    Ends (dropChildren ksize a handle dealloc) := by
  have hfilter : ∀ filter, Ends (BStackCountingBloomFilter.dropChildren a filter dealloc) := fun filter =>
    (ends_readFields _ _ _).bind fun _ => .ite (fun _ => hdealloc _) fun _ => .pure ()
  have hrest : ∀ filter : Nat, Ends (if filter ≠ 0 then do
      BStackCountingBloomFilter.dropChildren a filter dealloc
      dealloc ⟨filter, BStackCountingBloomFilter.BLOOM_SIZE⟩
    else pure () : Io Unit) := fun filter =>
    .ite (fun _ => (hfilter filter).bind fun _ => hdealloc _) fun _ => .pure ()
  refine (ends_readFields _ _ _).bind fun fields => ?_
  dsimp only
  refine .ite (fun _ => ?_) fun _ => (Ends.pure ()).bind fun _ => hrest _
  exact (ends_tableBytes _ _ _ (by decide) (by decide)).bind fun _ => (hdealloc _).bind fun _ => hrest _

theorem ends_cloneChildren {tag filterTag : UInt64} {allocRaw : Nat → Prog IoError (Batch × World) Nat}
    (halloc : ∀ n, Ends (allocRaw n)) : Ends (cloneChildren ksize a handle tag filterTag allocRaw) := by
  have hfilter : ∀ filter, Ends (BStackCountingBloomFilter.cloneChildren a filter filterTag allocRaw) := by
    intro filter
    refine (ends_readFields _ _ _).onSnd.bind fun fields => ?_
    dsimp only
    refine .ite (fun _ => ?_) fun _ => (Ends.pure _).bind fun _ => .pure _
    refine (ends_stackLen _).onSnd.bind fun total =>
      .ite (fun _ => (Ends.fail (by decide)).bind fun _ => .pure _) fun _ => ?_
    exact (ends_getInto _ _ _).onSnd.bind fun _ => (halloc _).bind fun _ => (Ends.onFst _).bind fun _ =>
      (Ends.pure _).bind fun _ => .pure _
  refine (ends_readFields _ _ _).onSnd.bind fun fields => ?_
  have hrest : ∀ newTable, Ends (do
      let od ← BStackCountingBloomFilter.cloneChildren a (fields.getD 4 0) filterTag allocRaw
      let newBloom ← allocRaw BStackCountingBloomFilter.BLOOM_SIZE
      Prog.onFst fun writes => writes ++ [(newBloom, od)]
      pure (leBytes 8 SET_SIZE ++ leBytes 8 tag.toNat ++ leBytes 8 newTable ++ leBytes 8 (fields.getD 1 0) ++
        leBytes 8 (fields.getD 2 0) ++ leBytes 8 (fields.getD 3 0) ++ leBytes 8 newBloom) :
      Prog IoError (Batch × World) (List UInt8)) := fun newTable =>
    (hfilter _).bind fun _ => (halloc _).bind fun _ => (Ends.onFst _).bind fun _ => .pure _
  dsimp only
  refine .ite (fun _ => ?_) fun _ => (Ends.pure _).bind hrest
  exact (ends_tableBytes _ _ _ (by decide) (by decide)).onSnd.bind fun _ => (ends_getInto _ _ _).onSnd.bind fun _ =>
    (halloc _).bind fun _ => (Ends.onFst _).bind fun _ => (Ends.pure _).bind hrest

end BStackHashSet

/-! ### The calls of both -/

namespace BucketTable

/-- A capacity that is a power of two makes one group of all buckets. -/
theorem growthFits_of_two_pow {a : Allocator} {handle stride ksz t : Nat} {w : World}
    (h : newcapOf ((w.files a.stack).bytes.word (handle + CAP_OFF)) = 2 ^ t) : GrowthFits a handle stride ksz w := by
  intro cap0 spare hread _ _ m old w₁ w₂ _ hcap hold g
  rw [← (readU64_ok hread).1] at h
  have hblock := Probing.blockOf_eq (t := t) (q := 1) (by decide)
  rw [Nat.mul_one] at hblock
  rw [h] at hcap ⊢
  rw [hblock]
  calc (liveKeys ksz old).countP (fun kb => keyGroup (2 ^ t) kb = g) ≤
    (liveKeys ksz old).length := List.countP_le_length
    _ ≤ old.length := by
        rw [liveKeys, List.length_map]
        exact List.length_filter_le ..
    _ = m.cap := (readBuckets_length m.cap hold).1
    _ ≤ 2 ^ t := Nat.le_of_lt hcap

section Calls

variable {ksize : Nat} (a : Allocator) (handle : Nat)

/-- A growth of a map or a set ends exactly if the live keys have room in the groups of its new table. They have where
that has a power of two of buckets. -/
theorem growths_end_iff (hksize : 16 + ksize < 2 ^ 63) (w : World) :
    (EndsAt (BStackHashMap.checkedGrow ksize a handle) w ↔ GrowthFits a handle (BStackHashMap.stride ksize) ksize w) ∧
      (EndsAt (BStackHashSet.grow ksize a handle) w ↔ GrowthFits a handle (BStackHashSet.stride ksize) ksize w) ∧
      ∀ stride t, newcapOf ((w.files a.stack).bytes.word (handle + CAP_OFF)) = 2 ^ t →
        GrowthFits a handle stride ksize w := by
  have hmap := BStackHashMap.shape hksize
  have hset : Checked.Shape (BStackHashSet.stride ksize) ksize BStackHashSet.taken :=
    BStackHashSet.shape (by rw [BStackHashSet.stride]; omega)
  refine ⟨?_, ?_, fun stride t h => growthFits_of_two_pow h⟩
  · rw [BStackHashMap.checkedGrow, Checked.growTable_eq a hmap.fits hmap.small, growTable_ends_iff hmap.fits]
  · rw [BStackHashSet.grow, Checked.growTable_eq a hset.fits hset.small, growTable_ends_iff hset.fits]

def handleWorld : World := (World.blank [16, 64, 256]).grant 0 ⟨16, 48⟩ (by decide)

def tableAllocator : Allocator := ⟨0, false, none, 0⟩

def zeroKey : Key 8 := ⟨[0, 0, 0, 0, 0, 0, 0, 0], rfl⟩

def entryWorld : World := (BStackHashMap.checkedInsert 8 tableAllocator 16 61 zeroKey 7 handleWorld).final

theorem endsAt_of_ok {σ α : Type} {c : Prog IoError σ α} {s : σ} {x : α} (h : (c s).out = .ok x) : EndsAt c s := by
  intro e he
  rw [h] at he
  cases he

/-- The growth of a map with an entry. -/
theorem growths_end_entry : EndsAt (BStackHashMap.checkedGrow 8 tableAllocator 16) entryWorld ∧
    ((BStackHashMap.checkedGrow 8 tableAllocator 16 entryWorld).final.files 0).live =
      [⟨256, 8 * BStackHashMap.stride 8⟩, ⟨16, 48⟩] :=
  ⟨(growths_end_iff tableAllocator 16 (by decide) entryWorld).1.mpr
    ((growths_end_iff tableAllocator 16 (by decide) entryWorld).2.2 _ 3 (by decide +kernel)), by decide +kernel⟩

/-- An insertion into a map or a set ends, after at most 61 rounds, exactly if each round that it comes to fits. -/
theorem insertions_end_iff (hksize : 16 + ksize < 2 ^ 63) {attempts : Nat} (hattempts : 61 ≤ attempts) (key : Key ksize)
    (valRef : UInt64) (w : World) :
    (EndsAt (BStackHashMap.checkedInsert ksize a handle attempts key valRef) w ↔
      ∀ v, Comes a (BStackHashMap.newEntry handle key valRef) (BStackHashMap.taken ksize)
        (BStackHashMap.checkedOverwrite ksize valRef) w v →
          RoundFits a (BStackHashMap.newEntry handle key valRef) (BStackHashMap.overwrite ksize valRef) v) ∧
      (EndsAt (BStackHashSet.tableInsert ksize a handle attempts key.val) w ↔
        ∀ v, Comes a (BStackHashSet.newEntry ksize handle key.val) BStackHashSet.taken BStackHashSet.keep w v →
          RoundFits a (BStackHashSet.newEntry ksize handle key.val) BStackHashSet.keep v) :=
  ⟨BStackHashMap.insert_ends_iff hksize hattempts key valRef,
    BStackHashSet.tableInsert_ends_iff (by rw [BStackHashSet.stride]; omega) hattempts key.val⟩

/-- The world after the round of a first insertion into a set that grows it. -/
def grownWorld : World :=
  (round tableAllocator (BStackHashSet.newEntry 8 16 zeroKey.val) BStackHashSet.taken BStackHashSet.keep
    handleWorld).final

/-- The round after the growth fits. -/
theorem insertions_end_grown :
    (BStackHashSet.tableInsert 8 tableAllocator 16 61 zeroKey.val handleWorld).out = .ok true ∧
      RoundFits tableAllocator (BStackHashSet.newEntry 8 16 zeroKey.val) BStackHashSet.keep grownWorld := by
  have hrun : (BStackHashSet.tableInsert 8 tableAllocator 16 61 zeroKey.val handleWorld).out = .ok true := by
    decide +kernel
  have hgrown : (round tableAllocator (BStackHashSet.newEntry 8 16 zeroKey.val) BStackHashSet.taken BStackHashSet.keep
      handleWorld).out = .ok none := by decide +kernel
  have hfits := (insertions_end_iff tableAllocator 16 (by decide) (Nat.le_refl 61) zeroKey 0 handleWorld).2.mp
    (endsAt_of_ok hrun)
  exact ⟨hrun, hfits _ (.next hgrown .here)⟩

/-- A removal ends, unless it finds its key in a table that counts no entry. -/
theorem removals_end_iff (hksize : 16 + ksize < 2 ^ 63) (key : Key ksize) (w : World) :
    (EndsAt (BStackHashMap.checkedRemove ksize a handle key) w ↔
      (FindsKey a.stack handle (BStackHashMap.stride ksize) ksize key.val w → (metaAt a.stack handle w).len ≠ 0)) ∧
      (EndsAt (BStackHashSet.tableRemove ksize a handle key.val) w ↔
        (FindsKey a.stack handle (BStackHashSet.stride ksize) ksize key.val w → (metaAt a.stack handle w).len ≠ 0)) :=
  ⟨removeKey_ends_iff (BStackHashMap.shape hksize),
    BStackHashSet.tableRemove_ends_iff (by rw [BStackHashSet.stride]; omega) key.val⟩

/-- A removal of the one entry of a map. -/
theorem removals_end_entry : EndsAt (BStackHashMap.checkedRemove 8 tableAllocator 16 zeroKey) entryWorld ∧
    (BStackHashMap.checkedRemove 8 tableAllocator 16 zeroKey entryWorld).out = .ok (some (leBytes 8 7)) :=
  ⟨(removals_end_iff tableAllocator 16 (by decide) zeroKey entryWorld).1.mpr fun _ => by decide +kernel,
    by decide +kernel⟩

end Calls

end BucketTable

end BStackRaii
