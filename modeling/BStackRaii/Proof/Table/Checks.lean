import BStackRaii.Logic.MaskedProbing
import BStackRaii.Proof.Table.Ends
/-!
# The checks of a growth

No check of `grow_table` fails: it is the growth of `Model/Table`. What is left is its loop for an empty bucket,
which ends exactly where the groups of the new table have room for the live keys.
-/

namespace BStackRaii

open Probing

namespace Gen

variable {α β : Type}

theorem reads_bind (k : Nat) (g : Gen α) (h : α → Gen β) (w : World) : (g >>= h).reads k w =
    match g.reads k w with
    | (.ok x, w') => (h x).reads k w'
    | (.error e, w') => (.error e, w') := by
  change (g.bind h).reads k w = _
  induction g generalizing w with
  | done out => cases out <;> rfl
  | read off n rest ih =>
      simp only [bind, reads]
      split
      · rfl
      split
      · exact ih _ _
      · rfl

theorem reads_lift (k : Nat) (out : Except IoError α) (w : World) : (lift out).reads k w = (out, w) := rfl

theorem lift_ok_bind (x : α) (h : α → Gen β) : (lift (.ok x) >>= h) = h x := rfl

theorem reads_pure (k : Nat) (x : α) (w : World) : (pure x : Gen α).reads k w = (.ok x, w) := rfl

theorem reads_files (k : Nat) (g : Gen α) (w : World) : (g.reads k w).2.files = w.files := by
  obtain ⟨n, ⟨hrun, -⟩ | hrun⟩ := g.reads_cases k w
  · rw [hrun]
    rfl
  · rw [hrun]
    rfl

theorem reads_get {k off n : Nat} {w w' : World} {buf : List UInt8} (h : (get off n).reads k w = (.ok buf, w')) :
    buf = (w.files k).bytes.read off n := by
  simp only [get, reads] at h
  split at h
  · cases h
  split at h
  · cases h
    rfl
  · cases h

end Gen

/-- What a generator reads or computes is an outcome. -/
def Gen.Calm {α : Type} (k : Nat) (g : Gen α) : Prop := ∀ w e, (g.reads k w).1 = .error e → ¬ Wedged e

namespace Gen.Calm

variable {α β : Type} {k : Nat}

theorem pure (x : α) : Calm k (pure x : Gen α) := by
  intro w e he
  cases he

theorem lift {out : Except IoError α} (h : ∀ e, out = .error e → ¬ Wedged e) : Calm k (lift out) := fun _ => h

theorem get (off n : Nat) : Calm k (get off n) := by
  intro w e he
  simp only [Gen.get, reads] at he
  split at he
  · cases he
    decide
  split at he
  · cases he
  · cases he
    decide

theorem bind {g : Gen α} {h : α → Gen β} (hg : Calm k g) (hh : ∀ x, Calm k (h x)) : Calm k (g >>= h) := by
  intro w e he
  rw [reads_bind] at he
  rcases hr : g.reads k w with ⟨e' | x, w'⟩
  · rw [hr] at he
    cases he
    exact hg w e (by rw [hr])
  · rw [hr] at he
    exact hh x w' e he

end Gen.Calm

/-- Generators that read and compute the same are the same step. -/
theorem inplaceGen_congr {α : Type} {k : Nat} {g g' : Gen (Batch × α)} (h : ∀ w, g.reads k w = g'.reads k w) :
    inplaceGen k g = inplaceGen k g' := by
  funext w
  simp only [inplaceGen, Prog.durable_apply, h w]

theorem except_ok_bind {ε α β : Type} (x : α) (f : α → Except ε β) : (Except.ok x >>= f) = f x := rfl

namespace BucketTable

variable {k handle stride ksz newcap oldSize : Nat} {m : Meta} {w w' : World} {image : Mem}

/-- A growth that computes its sizes has a bigger table, and both sizes are small. -/
structure Sized (stride cap0 : Nat) : Prop where
  new : newcapOf cap0 * stride < 2 ^ 64
  old : cap0 * stride < 2 ^ 63
  bigger : cap0 < newcapOf cap0
  eq : newcapOf cap0 = if cap0 = 0 then MIN_CAP else cap0 * 2

theorem Sized.of_checked {cap0 newSize : Nat} (hstride : 8 ≤ stride)
    (h : checkedMul (newcapOf cap0) stride = .ok newSize) :
    Sized stride cap0 ∧ newSize = newcapOf cap0 * stride := by
  rw [checkedMul] at h
  split at h
  · rename_i hlt
    cases h
    refine ⟨?_, rfl⟩
    by_cases hzero : cap0 = 0
    · subst hzero
      exact ⟨hlt, by omega, by decide, by decide⟩
    · have hnew : newcapOf cap0 = cap0 * 2 := by
        rw [newcapOf, if_neg hzero]
        by_contra hne
        have hsat : newcapOf cap0 = 2 ^ 64 - 1 := by
          rw [newcapOf, if_neg hzero]
          omega
        rw [hsat] at hlt
        have hbig : (2 ^ 64 - 1) * 8 ≤ (2 ^ 64 - 1) * stride := Nat.mul_le_mul_left _ hstride
        omega
      refine ⟨hlt, ?_, by omega, by rw [if_neg hzero, hnew]⟩
      rw [hnew, Nat.mul_right_comm] at hlt
      omega
  · cases h

/-! ### The snapshot -/

theorem Checked.readBuckets_eq (hstride : stride < 2 ^ 63) (hold : oldSize < 2 ^ 63) (left : Nat) {i : Nat}
    (hi : i * stride ≤ oldSize) (hleft : i + left < 2 ^ 64) :
    Checked.readBuckets m stride oldSize left i = BucketTable.readBuckets m stride oldSize left i := by
  induction left generalizing i with
  | zero => rfl
  | succ left ih =>
      rw [Checked.readBuckets, BucketTable.readBuckets, plus_ok (by omega), Gen.lift_ok_bind, times_ok (by omega),
        Gen.lift_ok_bind, plus_ok (by omega), Gen.lift_ok_bind]
      split
      · rfl
      · rw [ih (by rw [Nat.succ_mul]; omega) (by omega)]

theorem readBuckets_length (left : Nat) {i : Nat} {old : List (List UInt8)}
    (h : (readBuckets m stride oldSize left i).reads k w = (.ok old, w')) :
    old.length = left ∧ ∀ b ∈ old, b.length = stride := by
  induction left generalizing i w w' old with
  | zero =>
      cases h
      exact ⟨rfl, by simp⟩
  | succ left ih =>
      rw [readBuckets] at h
      split at h
      · cases h
      · rw [Gen.reads_bind, Gen.reads_lift] at h
        cases hoff : checkedOffMul m.table i stride with
        | error e =>
            rw [hoff] at h
            cases h
        | ok off =>
            rw [hoff] at h
            dsimp only at h
            rw [Gen.reads_bind] at h
            rcases hget : (Gen.get off stride).reads k w with ⟨_ | buf, w₁⟩
            · rw [hget] at h
              cases h
            · rw [hget] at h
              dsimp only at h
              rw [Gen.reads_bind] at h
              rcases hrest : (readBuckets m stride oldSize left (i + 1)).reads k w₁ with ⟨_ | rest, w₂⟩
              · rw [hrest] at h
                cases h
              · rw [hrest] at h
                cases h
                obtain ⟨hlen, hall⟩ := ih hrest
                refine ⟨by rw [List.length_cons, hlen], fun b hb => ?_⟩
                rcases List.mem_cons.mp hb with rfl | hb
                · rw [Gen.reads_get hget, Mem.length_read]
                · exact hall b hb

/-! ### The rebuild -/

theorem Checked.bucketAt_ok {size idx : Nat} (hidx : idx < newcap) (hsize : size = newcap * stride)
    (hlt : size < 2 ^ 64) : Checked.bucketAt size stride idx = .ok (idx * stride) := by
  have hle : (idx + 1) * stride ≤ newcap * stride := Nat.mul_le_mul_right _ hidx
  rw [Nat.succ_mul] at hle
  rw [Checked.bucketAt, times_ok (by omega), except_ok_bind, plus_ok (by omega), except_ok_bind, if_pos (by omega)]
  rfl

theorem Checked.vacantBucket_eq {size : Nat} (hsize : size = newcap * stride) (hlt : size < 2 ^ 64)
    (hcap : newcap < 2 ^ 64) (left : Nat) {idx : Nat} (hidx : idx < newcap) :
    Checked.vacantBucket size stride (newcap - 1) image left idx =
      match BucketTable.vacantBucket stride newcap image left idx with
      | some i => .ok i
      | none => .error neverEnds := by
  induction left generalizing idx with
  | zero => rfl
  | succ left ih =>
      rw [Checked.vacantBucket, BucketTable.vacantBucket, Checked.bucketAt_ok hidx hsize hlt, except_ok_bind]
      split
      · rfl
      · rw [plus_ok (by omega), except_ok_bind]
        exact ih (Nat.lt_of_le_of_lt Nat.and_le_right (by omega))

theorem vacantBucket_lt (left : Nat) {idx i : Nat} (hidx : idx < newcap)
    (h : vacantBucket stride newcap image left idx = some i) : i < newcap := by
  induction left generalizing idx with
  | zero => cases h
  | succ left ih =>
      rw [vacantBucket] at h
      split at h
      · cases h
        exact hidx
      · exact ih (Nat.lt_of_le_of_lt Nat.and_le_right (by omega)) h

theorem Checked.rebuild_eq {size : Nat} (hpos : 0 < newcap) (hksz : 8 + ksz ≤ stride) (hstride : stride < 2 ^ 63)
    (hsize : size = newcap * stride) (hlt : size < 2 ^ 64) {old : List (List UInt8)}
    (hold : ∀ b ∈ old, b.length = stride) (image : Mem) :
    Checked.rebuild size stride ksz newcap (newcap - 1) old image =
    BucketTable.rebuild stride ksz newcap old image := by
  have hle : newcap ≤ newcap * stride := Nat.le_mul_of_pos_right newcap (by omega)
  have hcap : newcap < 2 ^ 64 := by omega
  induction old generalizing image with
  | nil => rfl
  | cons b old ih =>
      have hb := hold b List.mem_cons_self
      have hrec := fun image => ih (fun x hx => hold x (List.mem_cons_of_mem _ hx)) image
      rw [Checked.rebuild, BucketTable.rebuild, wordAt_ok (by decide) (by omega), except_ok_bind]
      split
      · exact hrec image
      · have hrest : (b.drop (8 + ksz)).take (stride - (8 + ksz)) = b.drop (8 + ksz) :=
          List.take_of_length_le (Nat.le_of_eq (by rw [List.length_drop, hb]))
        have hidx : (fnv1a ((b.drop 8).take ksz)).toNat &&& (newcap - 1) < newcap :=
          Nat.lt_of_le_of_lt Nat.and_le_right (by omega)
        rw [plus_ok (by omega), except_ok_bind, slice_ok (by omega) (by omega), except_ok_bind,
          slice_ok (by omega) (by omega), except_ok_bind, Nat.add_sub_cancel_left, hrest,
          Checked.vacantBucket_eq hsize hlt hcap newcap hidx]
        dsimp only
        cases hv : BucketTable.vacantBucket stride newcap image newcap
            ((fnv1a ((b.drop 8).take ksz)).toNat &&& (newcap - 1)) with
        | none => rfl
        | some i =>
            dsimp only
            rw [except_ok_bind, Checked.bucketAt_ok (vacantBucket_lt newcap hidx hv) hsize hlt, except_ok_bind]
            exact hrec _

/-! ### The growth -/

theorem Checked.swapTable_reads {cap0 newtable : Nat} (hsized : Sized stride cap0) (hksz : 8 + ksz ≤ stride)
    (hstride : stride < 2 ^ 63) (w : World) :
    (Checked.swapTable handle stride ksz newtable (newcapOf cap0) (newcapOf cap0 * stride) (cap0 * stride)).reads k w =
      (BucketTable.swapTable handle stride ksz newtable (newcapOf cap0) (newcapOf cap0 * stride)
        (cap0 * stride)).reads k w := by
  have hbigger := hsized.bigger
  rw [Checked.swapTable, BucketTable.swapTable, Gen.reads_bind, Gen.reads_bind]
  rcases hmeta : (readMeta handle).reads k w with ⟨_ | m, w₁⟩
  · rfl
  · dsimp only
    split
    · rfl
    · have hcap : m.cap < 2 ^ 64 := by
        rw [readMeta, Gen.reads_bind] at hmeta
        rcases hget : (Gen.get (handle + HEADER_SIZE) 32).reads k w with ⟨_ | buf, w₂⟩
        · rw [hget] at hmeta
          cases hmeta
        · rw [hget] at hmeta
          cases hmeta
          exact getU64_lt buf 8
      rw [Checked.readBuckets_eq hstride hsized.old m.cap (by omega) (by omega), Gen.reads_bind, Gen.reads_bind]
      rcases hold : (BucketTable.readBuckets m stride (cap0 * stride) m.cap 0).reads k w₁ with ⟨_ | old, w₂⟩
      · rfl
      · dsimp only
        rw [minus_ok (by omega), Gen.lift_ok_bind,
          Checked.rebuild_eq (by omega) hksz hstride rfl hsized.new (readBuckets_length m.cap hold).2]

/-- No check of a growth fails. -/
theorem Checked.growTable_eq (a : Allocator) (hksz : 8 + ksz ≤ stride) (hstride : stride < 2 ^ 63) :
    (Checked.growTable a handle stride ksz).run = (BucketTable.growTable a handle stride ksz).run := by
  rw [Checked.growTable, BucketTable.growTable, Script.run_bind, Script.run_bind]
  refine congrArg (Bind.bind _) (funext fun cap0 => ?_)
  rw [Script.run_bind, Script.run_bind, Script.run_lift]
  cases hsize : checkedMul (newcapOf cap0) stride with
  | error e => rw [Script.lift_error_bind, Script.lift_error_bind]
  | ok newSize =>
      obtain ⟨hsized, rfl⟩ := Sized.of_checked (by omega) hsize
      have hold : checkedMul cap0 stride = .ok (cap0 * stride) := by
        have hlt := hsized.old
        exact if_pos (by omega)
      rw [Prog.lift_ok, pure_bind, pure_bind, Script.run_bind, Script.run_bind]
      refine congrArg (Bind.bind _) (funext fun spare => ?_)
      rw [growInto, hold, Script.lift_bind, Script.lift_bind, Script.done_ok_bind, Script.done_ok_bind,
        inplaceGen_congr fun w => Checked.swapTable_reads hsized hksz hstride w]

/-! ### Room for the live keys -/

/-- The live keys of a snapshot. -/
def liveKeys (ksz : Nat) (old : List (List UInt8)) : List (List UInt8) :=
  (old.filter fun b => getU64 b 0 = OCCUPIED).map fun b => (b.drop 8).take ksz

theorem liveKeys_cons_live {b : List UInt8} {old : List (List UInt8)} (h : getU64 b 0 = OCCUPIED) :
    liveKeys ksz (b :: old) = (b.drop 8).take ksz :: liveKeys ksz old := by simp [liveKeys, h]

theorem liveKeys_cons_dead {b : List UInt8} {old : List (List UInt8)} (h : getU64 b 0 ≠ OCCUPIED) :
    liveKeys ksz (b :: old) = liveKeys ksz old := by simp [liveKeys, h]

/-- The group of a key in a table of `cap` buckets. -/
def keyGroup (cap : Nat) (kb : List UInt8) : Nat := groupOf cap (fnv1a kb).toNat

/-- No group of a table of `newcap` buckets gets more of the live keys than it has buckets. -/
def Seats (ksz newcap : Nat) (old : List (List UInt8)) : Prop :=
  ∀ g, (liveKeys ksz old).countP (fun kb => keyGroup newcap kb = g) ≤ blockOf newcap

/-- The used buckets of an image. -/
def Shows (stride newcap : Nat) (image : Mem) (s : Nat → Slot (List UInt8) Unit) : Prop :=
  ∀ i < newcap, image.word (i * stride) = EMPTY ↔ (s i).isUsed = false

theorem shows_zero (stride newcap : Nat) : Shows stride newcap Mem.zero fun _ => .empty := by
  intro i _
  simp [show Mem.zero.word (i * stride) = EMPTY from Mem.word_zero _, Slot.isUsed]

variable {s : Nat → Slot (List UInt8) Unit}

theorem Shows.vacant (h : Shows stride newcap image s) (left : Nat) {idx : Nat} (hidx : idx < newcap) :
    vacantBucket stride newcap image left idx = maskedVacancy newcap s left idx := by
  induction left generalizing idx with
  | zero => rfl
  | succ left ih =>
      rw [vacantBucket, maskedVacancy, maskedNext, ih (Nat.lt_of_le_of_lt Nat.and_le_right (by omega))]
      have hused := h idx hidx
      cases hs : (s idx).isUsed with
      | true => rw [if_neg (by rw [hused, hs]; decide), if_pos rfl]
      | false => rw [if_pos (hused.mpr hs), if_neg (by decide)]

theorem Shows.write (h : Shows stride newcap image s) {idx : Nat} {kb bytes : List UInt8}
    (hbytes : bytes.length = stride)
    (hstate : bytes.take 8 = leBytes 8 OCCUPIED) (hstride : 8 ≤ stride) :
    Shows stride newcap (image.write (idx * stride) bytes) (Function.update s idx (.occupied kb ())) := by
  intro i hi
  by_cases hii : i = idx
  · subst hii
    have hread := Mem.read_write_window image (i * stride) bytes (i := 0) (n := 8) (by omega)
    rw [Nat.add_zero, List.drop_zero, hstate] at hread
    rw [Function.update_self, Mem.word, hread]
    simp [Slot.isUsed, leNat_leBytes, OCCUPIED, EMPTY]
  · rw [Function.update_of_ne hii, Mem.word_write_disjoint]
    · exact h i hi
    · rw [hbytes]
      rcases Nat.lt_or_gt_of_ne hii with hlt | hgt
      · have hle : (i + 1) * stride ≤ idx * stride := Nat.mul_le_mul_right _ hlt
        rw [Nat.succ_mul] at hle
        omega
      · have hle : (idx + 1) * stride ≤ i * stride := Nat.mul_le_mul_right _ hgt
        rw [Nat.succ_mul] at hle
        omega

theorem rebuild_eq_enter (hpos : 0 < newcap) (hksz : 8 + ksz ≤ stride) {old : List (List UInt8)}
    (hold : ∀ b ∈ old, b.length = stride) (h : Shows stride newcap image s) :
    match enter (fun kb => (fnv1a kb).toNat) newcap ((liveKeys ksz old).map fun kb => (kb, ())) s with
    | some _ => ∃ image', rebuild stride ksz newcap old image = .ok image'
    | none => rebuild stride ksz newcap old image = .error neverEnds := by
  induction old generalizing image s with
  | nil => exact ⟨image, rfl⟩
  | cons b old ih =>
      have hb := hold b List.mem_cons_self
      have hrest := fun x hx => hold x (List.mem_cons_of_mem b hx)
      by_cases hstate : getU64 b 0 = OCCUPIED
      · rw [liveKeys_cons_live hstate, List.map_cons, enter, rebuild, if_neg (not_not_intro hstate)]
        dsimp only
        rw [h.vacant newcap (Nat.lt_of_le_of_lt Nat.and_le_right (by omega))]
        cases hv : maskedVacancy newcap s newcap ((fnv1a ((b.drop 8).take ksz)).toNat &&& (newcap - 1)) with
        | none => rfl
        | some i =>
            apply ih hrest
            apply h.write
            · simp only [List.length_append, length_leBytes, List.length_take, List.length_drop, hb]
              omega
            · rw [List.append_assoc, List.take_append_of_le_length (by simp), List.take_of_length_le (by simp)]
            · omega
      · rw [liveKeys_cons_dead hstate, rebuild, if_pos hstate]
        exact ih hrest h

/-- The loops of a rebuild end exactly if the live keys have room in their groups. -/
theorem rebuild_ends_iff (hpos : 0 < newcap) (hksz : 8 + ksz ≤ stride) {old : List (List UInt8)}
    (hold : ∀ b ∈ old, b.length = stride) :
    (∀ e, rebuild stride ksz newcap old Mem.zero = .error e → ¬ Wedged e) ↔ Seats ksz newcap old := by
  have hcases := rebuild_eq_enter hpos hksz hold (shows_zero stride newcap)
  have henter := enter_isSome_iff (fun kb => (fnv1a kb).toNat) hpos ((liveKeys ksz old).map fun kb => (kb, ()))
    fun _ => .empty
  have hzero : ∀ g, usedOf (blockOf newcap) (slotsOf newcap (fun _ => (.empty : Slot (List UInt8) Unit)) g) = 0 := by
    intro g
    simp [usedOf, slotsOf, Slot.isUsed]
  have hroom : HasRoom (fun kb => (fnv1a kb).toNat) newcap ((liveKeys ksz old).map fun kb => (kb, ()))
      (fun _ => .empty) ↔ Seats ksz newcap old := by
    apply forall_congr'
    intro g
    rw [hzero, Nat.zero_add, List.countP_map]
    exact Iff.rfl
  rw [← hroom, ← henter]
  cases hent : enter (fun kb => (fnv1a kb).toNat) newcap ((liveKeys ksz old).map fun kb => (kb, ()))
      fun _ => .empty with
  | some s' =>
      rw [hent] at hcases
      obtain ⟨image', hok⟩ := hcases
      simp [hok]
  | none =>
      rw [hent] at hcases
      simp [hcases, Wedged]

/-! ### Growths that end -/

/-- A growth of a table that had `cap0` buckets comes to its rebuild in `w`, if at all, with room for the live keys. -/
def FitsAt (a : Allocator) (handle stride ksz cap0 : Nat) (w : World) : Prop :=
  ∀ m old w₁ w₂, (readMeta handle).reads a.stack w = (.ok m, w₁) → m.cap < newcapOf cap0 →
    (readBuckets m stride (cap0 * stride) m.cap 0).reads a.stack w₁ = (.ok old, w₂) → Seats ksz (newcapOf cap0) old

/-- The same of a growth that starts in `w`. -/
def GrowthFits (a : Allocator) (handle stride ksz : Nat) (w : World) : Prop :=
  ∀ cap0 spare, (readU64 a.stack (handle + CAP_OFF) w).out = .ok cap0 → newcapOf cap0 * stride < 2 ^ 64 →
    (alloc a (newcapOf cap0 * stride) (readU64 a.stack (handle + CAP_OFF) w).final).out = .ok spare →
    FitsAt a handle stride ksz cap0 (alloc a (newcapOf cap0 * stride)
      (readU64 a.stack (handle + CAP_OFF) w).final).final

theorem calm_readMeta (k handle : Nat) : (readMeta handle).Calm k := (Gen.Calm.get _ _).bind fun _ => .pure _

theorem calm_readBuckets (left : Nat) (i : Nat) : (readBuckets m stride oldSize left i).Calm k := by
  induction left generalizing i with
  | zero => exact .pure _
  | succ left ih =>
      rw [readBuckets]
      split
      · refine .lift fun e he => ?_
        cases he
        decide
      · exact (Gen.Calm.lift fun e he => checkedOffMul_calm he).bind fun _ =>
          (Gen.Calm.get _ _).bind fun _ => (ih _).bind fun _ => .pure _

variable {a : Allocator}

theorem swapTable_calm_iff {cap0 newtable newSize : Nat} (hpos : 0 < newcapOf cap0) (hksz : 8 + ksz ≤ stride) :
    (∀ e, ((swapTable handle stride ksz newtable (newcapOf cap0) newSize (cap0 * stride)).reads a.stack w).1 =
      .error e →
      ¬ Wedged e) ↔ FitsAt a handle stride ksz cap0 w := by
  rw [swapTable, Gen.reads_bind, FitsAt]
  rcases hmeta : (readMeta handle).reads a.stack w with ⟨e | m, w₁⟩
  · have hcalm := calm_readMeta a.stack handle w e (by rw [hmeta])
    simp [hcalm]
  · dsimp only
    split
    · rename_i hstays
      simp only [Gen.reads_pure, reduceCtorEq, false_implies, implies_true, Prod.mk.injEq, Except.ok.injEq, true_iff]
      rintro m' old w₁' w₂ ⟨rfl, rfl⟩ hlt
      omega
    · rename_i hgrows
      rw [Gen.reads_bind]
      rcases hold : (readBuckets m stride (cap0 * stride) m.cap 0).reads a.stack w₁ with ⟨e | old, w₂⟩
      · have hcalm := calm_readBuckets (k := a.stack) m.cap 0 w₁ e (by rw [hold])
        simp only [Except.error.injEq, forall_eq', hcalm, not_false_eq_true, true_iff, Prod.mk.injEq, Except.ok.injEq]
        rintro m' old w₁' w₂' ⟨rfl, rfl⟩ - hold'
        rw [hold] at hold'
        cases hold'
      · dsimp only
        rw [Gen.reads_bind, Gen.reads_lift]
        have hends := rebuild_ends_iff hpos hksz (readBuckets_length m.cap hold).2
        have hthis : (∀ m' old' w₁' w₂', (Except.ok (ε := IoError) m, w₁) = (.ok m', w₁') → m'.cap < newcapOf cap0 →
            (readBuckets m' stride (cap0 * stride) m'.cap 0).reads a.stack w₁' = (.ok old', w₂') →
              Seats ksz (newcapOf cap0) old') ↔ Seats ksz (newcapOf cap0) old := by
          constructor
          · intro h
            exact h m old w₁ w₂ rfl (by omega) hold
          · rintro h m' old' w₁' w₂' hm - hold'
            cases hm
            rw [hold] at hold'
            cases hold'
            exact h
        rw [hthis, ← hends]
        cases hbuild : rebuild stride ksz (newcapOf cap0) old Mem.zero with
        | ok image => simp [Gen.reads_pure]
        | error e => simp

theorem ends_afterSwap (a : Allocator) (stride : Nat) (spare : Range) (x : Option (Nat × Nat)) :
    Ends (afterSwap a stride spare (.ok x)).run := by
  cases x with
  | none =>
      rw [afterSwap, Script.run_bind, Script.run_attempt]
      exact (Ends.attempt _).bind fun _ => .pure ()
  | some old =>
      rw [afterSwap]
      split
      · rw [Script.run_bind, Script.run_attempt]
        exact (Ends.attempt _).bind fun _ => .pure ()
      · exact Ends.pure ()

theorem endsAt_afterSwap_error (a : Allocator) (stride : Nat) (spare : Range) (e : IoError) (w : World) :
    EndsAt (afterSwap a stride spare (.error e)).run w ↔ ¬ Wedged e := by
  rw [afterSwap, Script.run_bind, Script.run_attempt, endsAt_bind_iff]
  simp only [Ends.attempt _ w, true_and, Script.run_fail]
  constructor
  · intro h
    exact h _ rfl e rfl
  · intro h x _ e' he
    cases he
    exact h

/-- A growth ends exactly if the live keys have room in the groups of its new table. -/
theorem growTable_ends_iff (hksz : 8 + ksz ≤ stride) :
    EndsAt (growTable a handle stride ksz).run w ↔ GrowthFits a handle stride ksz w := by
  rw [growTable, Script.run_bind, Script.run_atom, endsAt_bind_iff, GrowthFits]
  simp only [ends_readU64 a.stack (handle + CAP_OFF) w, true_and]
  apply forall_congr'
  intro cap0
  rw [forall_comm]
  refine forall_congr' fun _ => ?_
  rw [Script.run_bind, Script.run_lift]
  cases hsize : checkedMul (newcapOf cap0) stride with
  | error e =>
      have hbig : ¬ newcapOf cap0 * stride < 2 ^ 64 := by
        intro hlt
        rw [checkedMul, if_pos hlt] at hsize
        cases hsize
      rw [Script.lift_error_bind]
      constructor
      · intro _ spare hlt
        exact absurd hlt hbig
      · intro _
        exact Ends.fail (checkedMul_calm hsize) _
  | ok newSize =>
      obtain ⟨hsized, rfl⟩ := Sized.of_checked (by omega) hsize
      have hold : checkedMul cap0 stride = .ok (cap0 * stride) := by
        have hlt := hsized.old
        exact if_pos (by omega)
      rw [Prog.lift_ok, pure_bind, Script.run_bind, Script.run_atom, endsAt_bind_iff]
      simp only [ends_alloc a _ _, true_and, hsized.new, true_implies]
      refine forall_congr' fun spare => forall_congr' fun _ => ?_
      rw [growInto, hold, Script.lift_bind, Script.done_ok_bind, Script.run_bind, Script.run_atom,
        endsAt_inplaceGen_iff (ends_afterSwap a stride _) (endsAt_afterSwap_error a stride _),
        swapTable_calm_iff (by have hbigger := hsized.bigger; omega) hksz]

end BucketTable

end BStackRaii
