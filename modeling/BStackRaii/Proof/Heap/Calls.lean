import BStackRaii.Proof.Heap.Disk
import BStackRaii.Model.Shared
/-!
# Calls on a binary heap

The loops of a push and a pop read the slots that the sifts of `Logic.Heap` read, and collect the writes of
their moves. Whatever fails, the heap keeps its elements until the batch lands.
-/

namespace BStackRaii

namespace BStackBinaryHeap

variable {ksize : Nat} {a : Allocator} {handle : Nat} {cmp : Key ksize → Key ksize → Ordering} {t : Info}
  {s : Nat → Entry ksize} {w₀ : World} {C : World → Prop} {e : Entry ksize} {i n left hole : Nat}

/-- The order of the heap: `e` may stand above `e'`. -/
def le (cmp : Key ksize → Key ksize → Ordering) (e e' : Entry ksize) : Prop := cmp e.1 e'.1 ≠ .gt

instance : DecidableRel (le cmp) := fun e e' => inferInstanceAs (Decidable (cmp e.1 e'.1 ≠ .gt))

theorem lawful [Std.TransCmp cmp] : Heap.Lawful (le cmp) := by
  constructor
  · intro e e'
    by_cases hgt : cmp e.1 e'.1 = .gt
    · right
      rw [le, Std.OrientedCmp.lt_of_gt hgt]
      decide
    · exact .inl hgt
  · intro e e' e'' h h'
    exact Ordering.isLE_iff_ne_gt.mp (Std.TransCmp.isLE_trans (Ordering.isLE_iff_ne_gt.mpr h)
      (Ordering.isLE_iff_ne_gt.mpr h'))

def Kept (a : Allocator) (handle : Nat) (t : Info) (s : Nat → Entry ksize) (w₀ : World) (e : IoError) (w : World) :
    Prop := IoFailed w₀ e ∧ Under w₀ a.stack (Holds handle t s) w

/-! ### Reading -/

theorem readMeta_spec : Prog.Spec (Under w₀ a.stack (Holds handle t s)) (readMeta a handle)
    (fun r w => r = (t.data, t.cap, t.len) ∧ Under w₀ a.stack (Holds handle t s) w) (Kept a handle t s w₀) C := by
  rw [readMeta]
  have hfields : Prog.Spec (Under w₀ a.stack (Holds handle t s)) (readFields a.stack (handle + DATA_OFF) 3)
      (fun fields w => fields = [t.data, t.cap, t.len] ∧ Under w₀ a.stack (Holds handle t s) w)
      (Kept a handle t s w₀) C := by
    refine (readFields_under (fun f hf => ?_) fun e w he hw => ⟨he, hw⟩).weaken (fun _ h => h)
      (fun fields w hw => ?_) (fun _ _ h => h) fun _ h => h
    · have hblock := hf.1.handle_inside
      have hoff : DATA_OFF = 16 := rfl
      omega
    · obtain ⟨⟨hf, rfl⟩, hq⟩ := hw
      refine ⟨?_, hf, hq⟩
      rw [← hf.1.data, ← hf.1.cap, ← hf.1.len]
      rfl
  apply Prog.Spec.bind_value hfields
  exact Prog.Spec.pure fun w hw => ⟨rfl, hw⟩

theorem slotOff_spec {β : Type} {c : Nat → Io β} {Q : β → World → Prop} {E : IoError → World → Prop} (hi : i < t.cap)
    (hc : Prog.Spec (Under w₀ a.stack (Holds handle t s)) (c (t.data + i * stride ksize)) Q E C) :
    Prog.Spec (Under w₀ a.stack (Holds handle t s)) (Prog.lift (slotOff ksize t.data i) >>= c) Q E C := by
  apply Prog.Spec.assume (φ := slotOff ksize t.data i = .ok (t.data + i * stride ksize))
  · exact fun w hw => hw.1.1.slotOff_ok hi
  intro hoff
  rw [hoff, Prog.lift_ok, pure_bind]
  exact hc

theorem readSlot_spec (hi : i < t.cap) : Prog.Spec (Under w₀ a.stack (Holds handle t s)) (readSlot a ksize t.data i)
    (fun buf w => buf = slotImage (s i) ∧ Under w₀ a.stack (Holds handle t s) w) (Kept a handle t s w₀) C := by
  apply slotOff_spec hi
  refine (getInto_under (fun f hf => hf.1.slot_inside hi) fun e w he hw => ⟨he, hw⟩).weaken (fun _ h => h)
    (fun buf w hw => ?_) (fun _ _ h => h) fun _ h => h
  exact ⟨hw.1.2.trans (hw.1.1.slot_read hi), hw.mono fun f hf => hf.1⟩

theorem readKey_image (e : Entry ksize) : readKey ksize (slotImage e) = e.1 := congrArg Prod.fst (slotOf_image e)

theorem slotVal_image (e : Entry ksize) : slotVal ksize (slotImage e) = e.2 := congrArg Prod.snd (slotOf_image e)

/-! ### Sifting -/

/-- What a sift returns: the writes of its moves, and where the hole ends. -/
def sifted (data : Nat) (r : List (Nat × Entry ksize) × Nat) : Batch × Nat := (r.1.map (slotWrite data), r.2)

theorem siftUp_spec (e : Entry ksize) (left : Nat) (hhole : hole < t.cap) :
    Prog.Spec (Under w₀ a.stack (Holds handle t s)) (siftUp a cmp t.data e.1 left hole)
      (fun r w => r = sifted t.data (Heap.up (le cmp) s e left hole) ∧ Under w₀ a.stack (Holds handle t s) w)
      (Kept a handle t s w₀) C := by
  induction left generalizing hole with
  | zero => exact Prog.Spec.pure fun w hw => ⟨rfl, hw⟩
  | succ left ih =>
      rw [siftUp, Heap.up]
      by_cases h0 : hole = 0
      · rw [if_pos h0, if_pos h0]
        exact Prog.Spec.pure fun w hw => ⟨rfl, hw⟩
      · have hlt := Heap.parent_lt h0
        rw [if_neg h0, if_neg h0]
        apply Prog.Spec.bind_value (readSlot_spec (Nat.lt_trans hlt hhole))
        rw [readKey_image]
        by_cases hgt : cmp (s (Heap.parent hole)).1 e.1 = .gt
        · have hafter : ¬ le cmp (s (Heap.parent hole)) e := not_not_intro hgt
          rw [if_pos hgt, if_neg hafter]
          apply slotOff_spec hhole
          apply Prog.Spec.bind_value (ih (Nat.lt_trans hlt hhole))
          exact Prog.Spec.pure fun w hw => ⟨rfl, hw⟩
        · have hstop : le cmp (s (Heap.parent hole)) e := hgt
          rw [if_neg hgt, if_pos hstop]
          exact Prog.Spec.pure fun w hw => ⟨rfl, hw⟩

theorem smallerChild_spec [Std.TransCmp cmp] (hn : n ≤ t.cap) (hin : 2 * hole + 1 < n) :
    Prog.Spec (Under w₀ a.stack (Holds handle t s)) (smallerChild a cmp t.data n hole)
      (fun r w => r = (Heap.firstChild (le cmp) s n hole, slotImage (s (Heap.firstChild (le cmp) s n hole))) ∧
        Under w₀ a.stack (Holds handle t s) w) (Kept a handle t s w₀) C := by
  rw [smallerChild]
  apply Prog.Spec.bind_value (readSlot_spec (Nat.lt_of_lt_of_le hin hn))
  by_cases hright : 2 * hole + 2 < n
  · rw [if_pos hright]
    apply Prog.Spec.bind_value (readSlot_spec (Nat.lt_of_lt_of_le hright hn))
    rw [readKey_image, readKey_image]
    by_cases hlt : cmp (s (2 * hole + 2)).1 (s (2 * hole + 1)).1 = .lt
    · have hfirst : Heap.firstChild (le cmp) s n hole = 2 * hole + 2 :=
        if_pos ⟨hright, not_not_intro (Std.OrientedCmp.gt_of_lt hlt)⟩
      rw [if_pos hlt, hfirst]
      exact Prog.Spec.pure fun w hw => ⟨rfl, hw⟩
    · have hfirst : Heap.firstChild (le cmp) s n hole = 2 * hole + 1 :=
        if_neg fun hno => hlt (Std.OrientedCmp.lt_of_gt (not_not.mp hno.2))
      rw [if_neg hlt, hfirst]
      exact Prog.Spec.pure fun w hw => ⟨rfl, hw⟩
  · have hfirst : Heap.firstChild (le cmp) s n hole = 2 * hole + 1 := if_neg fun hno => hright hno.1
    rw [if_neg hright, hfirst]
    exact Prog.Spec.pure fun w hw => ⟨rfl, hw⟩

theorem siftDown_spec [Std.TransCmp cmp] (e : Entry ksize) (left : Nat) (hn : n ≤ t.cap) (hhole : hole < n) :
    Prog.Spec (Under w₀ a.stack (Holds handle t s)) (siftDown a cmp t.data n e.1 left hole)
      (fun r w => r = sifted t.data (Heap.down (le cmp) s e n left hole) ∧ Under w₀ a.stack (Holds handle t s) w)
      (Kept a handle t s w₀) C := by
  induction left generalizing hole with
  | zero => exact Prog.Spec.pure fun w hw => ⟨rfl, hw⟩
  | succ left ih =>
      rw [siftDown, Heap.down]
      by_cases hin : n ≤ 2 * hole + 1
      · rw [if_pos hin, if_pos hin]
        exact Prog.Spec.pure fun w hw => ⟨rfl, hw⟩
      · have hchild := Heap.firstChild_cases (le cmp) s n hole
        rw [if_neg hin, if_neg hin]
        apply Prog.Spec.bind_value (smallerChild_spec hn (by omega))
        simp only [readKey_image]
        by_cases hlt : cmp (s (Heap.firstChild (le cmp) s n hole)).1 e.1 = .lt
        · have hbefore : ¬ le cmp e (s (Heap.firstChild (le cmp) s n hole)) :=
            not_not_intro (Std.OrientedCmp.gt_of_lt hlt)
          rw [if_pos hlt, if_neg hbefore]
          apply slotOff_spec (Nat.lt_of_lt_of_le hhole hn)
          apply Prog.Spec.bind_value (ih (by omega))
          exact Prog.Spec.pure fun w hw => ⟨rfl, hw⟩
        · have hstop : le cmp e (s (Heap.firstChild (le cmp) s n hole)) := fun hgt =>
            hlt (Std.OrientedCmp.lt_of_gt hgt)
          rw [if_neg hlt, if_pos hstop]
          exact Prog.Spec.pure fun w hw => ⟨rfl, hw⟩

/-! ### The batches -/

def pushMoves (cmp : Key ksize → Key ksize → Ordering) (s : Nat → Entry ksize) (e : Entry ksize) (n : Nat) :
    List (Nat × Entry ksize) :=
  (Heap.up (le cmp) s e n n).1 ++ [((Heap.up (le cmp) s e n n).2, e)]

def popMoves (cmp : Key ksize → Key ksize → Ordering) (s : Nat → Entry ksize) (n : Nat) : List (Nat × Entry ksize) :=
  (Heap.down (le cmp) s (s n) n n 0).1 ++ [((Heap.down (le cmp) s (s n) n n 0).2, s n)]

/-- The moves rewrite each of their slots once, and only slots of the heap. -/
structure Once (n : Nat) (moves : List (Nat × Entry ksize)) : Prop where
  distinct : (moves.map Prod.fst).Nodup
  inside : ∀ m ∈ moves, m.1 < n

theorem pushMoves_once (s : Nat → Entry ksize) (e : Entry ksize) (n : Nat) : Once (n + 1) (pushMoves cmp s e n) := by
  obtain ⟨hend, hpath, hnodup⟩ := Heap.up_path (le cmp) s e n n
  constructor
  · rw [pushMoves, List.map_append, List.nodup_append]
    refine ⟨hnodup, List.nodup_singleton _, fun i hi j hj => ?_⟩
    obtain ⟨m, hm, rfl⟩ := List.mem_map.mp hi
    cases List.mem_singleton.mp hj
    exact Nat.ne_of_gt (hpath m hm).1
  · intro m hm
    rcases List.mem_append.mp hm with hm | hm
    · exact Nat.lt_succ_of_le (hpath m hm).2
    · cases List.mem_singleton.mp hm
      exact Nat.lt_succ_of_le hend

theorem popMoves_once (s : Nat → Entry ksize) (hn : 0 < n) : Once n (popMoves cmp s n) := by
  obtain ⟨hend, -, hpath, hnodup⟩ := Heap.down_path (le cmp) s (s n) n hn
  constructor
  · rw [popMoves, List.map_append, List.nodup_append]
    refine ⟨hnodup, List.nodup_singleton _, fun i hi j hj => ?_⟩
    obtain ⟨m, hm, rfl⟩ := List.mem_map.mp hi
    cases List.mem_singleton.mp hj
    exact Nat.ne_of_lt (hpath m hm).2
  · intro m hm
    rcases List.mem_append.mp hm with hm | hm
    · exact Nat.lt_trans (hpath m hm).2 hend
    · cases List.mem_singleton.mp hm
      exact hend

theorem siftBatch_append (data handle n : Nat) (moves : List (Nat × Entry ksize)) (m : Nat × Entry ksize) :
    moves.map (slotWrite data) ++ [slotWrite data m, w8 (handle + LEN_OFF) n] =
      siftBatch data handle n (moves ++ [m]) := by
  rw [siftBatch, List.map_append, List.append_assoc]
  rfl

theorem pushWrites_spec (e : Entry ksize) (hlen : t.len < t.cap) :
    Prog.Spec (Under w₀ a.stack (Holds handle t s)) (pushWrites a handle cmp t.data t.len e.1 e.2)
      (fun ws w => ws = siftBatch t.data handle (t.len + 1) (pushMoves cmp s e t.len) ∧
        Under w₀ a.stack (Holds handle t s) w) (Kept a handle t s w₀) C := by
  obtain ⟨hend, -⟩ := Heap.up_path (le cmp) s e t.len t.len
  rw [pushWrites]
  apply Prog.Spec.bind_value (siftUp_spec e t.len hlen)
  have hstop := Nat.lt_of_le_of_lt hend hlen
  rw [pushMoves, ← siftBatch_append]
  generalize Heap.up (le cmp) s e t.len t.len = r at hstop ⊢
  apply slotOff_spec hstop
  exact Prog.Spec.pure fun w hw => ⟨rfl, hw⟩

theorem popWrites_spec [Std.TransCmp cmp] (hpos : 0 < n) (hn : n ≤ t.cap) :
    Prog.Spec (Under w₀ a.stack (Holds handle t s)) (popWrites a handle cmp t.data n (slotImage (s n)))
      (fun ws w => ws = siftBatch t.data handle n (popMoves cmp s n) ∧ Under w₀ a.stack (Holds handle t s) w)
      (Kept a handle t s w₀) C := by
  obtain ⟨hend, -⟩ := Heap.down_path (le cmp) s (s n) n hpos
  rw [popWrites, readKey_image]
  apply Prog.Spec.bind_value (siftDown_spec (s n) n hn hpos)
  have hstop := Nat.lt_of_lt_of_le hend hn
  rw [popMoves, ← siftBatch_append]
  generalize Heap.down (le cmp) s (s n) n n 0 = r at hstop ⊢
  apply slotOff_spec hstop
  exact Prog.Spec.pure fun w hw => ⟨rfl, hw⟩

/-! ### Growing -/

/-- The errors of a growing call: the environment, and a capacity whose slots have no address. -/
def Failure (a : Allocator) (ksize : Nat) (w₀ : World) (t : Info) (e : IoError) (w : World) : Prop :=
  EnvError a (newcapOf t.cap * stride ksize) w₀ e w ∨ (e = capacityOverflow ∧ 2 ^ 64 ≤ newcapOf t.cap * stride ksize)

/-- The block `r` is allocated beside the heap, for a bigger array. -/
structure Spare (handle : Nat) (t : Info) (s : Nat → Entry ksize) (r : Range) (f : File) : Prop where
  heap : Holds handle t s f
  live : r ∈ f.live
  len : r.len = newcapOf t.cap * stride ksize
  ne_handle : r.start ≠ handle
  ne_data : r.start ≠ t.data

def Copied (handle : Nat) (t : Info) (s : Nat → Entry ksize) (r : Range) (f : File) : Prop :=
  Spare handle t s r f ∧ ∀ i < t.len, slotAt ksize f.bytes r.start i = s i

def Moved (handle : Nat) (t : Info) (s : Nat → Entry ksize) (r : Range) (f : File) : Prop :=
  r.start ≠ t.data ∧ ∃ s', Holds handle ⟨r.start, newcapOf t.cap, t.len⟩ s' f ∧ ∀ i < t.len, s' i = s i

section Grow

variable {f : File} {r : Range}

theorem newcap_pos (cap : Nat) : 0 < newcapOf cap := by
  rw [newcapOf, MIN_CAP]
  split <;> omega

theorem HeapAt.cap_small (h : HeapAt ksize f handle t) : t.cap < 2 ^ 61 := by
  have hlt := h.cap_lt
  have hle : t.cap * 8 ≤ t.cap * stride ksize := Nat.mul_le_mul_left _ (by rw [stride]; omega)
  omega

theorem HeapAt.cap_lt_newcap (h : HeapAt ksize f handle t) : t.cap < newcapOf t.cap := by
  have hlt := h.cap_small
  rw [newcapOf, MIN_CAP]
  split <;> omega

theorem Spare.of_alloc (h : Holds handle t s f) (hr : f.Admits r) (hlen : r.len = newcapOf t.cap * stride ksize) :
    Spare handle t s r (f.allocAt r hr) := by
  have hpos : 0 < r.len := hlen ▸ Nat.mul_pos (newcap_pos t.cap) (stride_pos ksize)
  refine ⟨h.frame fun b hb => ?_, List.mem_cons_self, hlen, hr.start_ne hpos h.1.block (Nat.succ_pos _), ?_⟩
  · have hlive : b ∈ f.live := by
      rcases hb with rfl | ⟨hcap, rfl⟩
      · exact h.1.block
      · exact (h.1.array.resolve_left (by omega)).2
    refine ⟨List.mem_cons_of_mem r hlive, fun x hx hx' => ?_⟩
    rw [File.bytes_allocAt]
    cases (hr.2.2 b hlive).2 with
    | inl hle => exact Mem.write_of_lt (Nat.lt_of_lt_of_le hx' hle)
    | inr hge => exact Mem.write_of_ge (by rw [List.length_replicate]; exact Nat.le_trans hge hx)
  · rcases h.1.array with ⟨-, hdata⟩ | ⟨hcap, hlive⟩
    · have hin := hr.1
      omega
    · exact hr.start_ne hpos hlive (Nat.mul_pos hcap (stride_pos ksize))

theorem Spare.write (h : Spare handle t s r f) (data : List UInt8) (hlen : data.length ≤ r.len) :
    Spare handle t s r (f.write r.start data) := by
  refine ⟨h.heap.frame fun b hb => ?_, h.live, h.len, h.ne_handle, h.ne_data⟩
  have hlive : b ∈ f.live ∧ r.start ≠ b.start := by
    rcases hb with rfl | ⟨hcap, rfl⟩
    · exact ⟨h.heap.1.block, h.ne_handle⟩
    · exact ⟨(h.heap.1.array.resolve_left (by omega)).2, h.ne_data⟩
  refine ⟨hlive.1, fun x hx hx' => ?_⟩
  have hapart := (apart_of_mem f.apart h.live hlive.1 fun heq => hlive.2 (congrArg Range.start heq)).2
  simp only [Range.stop] at hapart hx'
  rw [File.bytes_write]
  rcases hapart with hle | hge
  · exact Mem.write_of_ge (by omega)
  · exact Mem.write_of_lt (by omega)

/-- Copying the bytes copies the elements. -/
theorem Spare.copy (h : Spare handle t s r f) :
    Copied handle t s r (f.write r.start (f.bytes.read t.data (t.len * stride ksize))) := by
  have hlen := h.heap.1.len_le
  have hnew := h.heap.1.cap_lt_newcap
  have hfits : t.len * stride ksize ≤ r.len := by
    rw [h.len]
    exact Nat.mul_le_mul_right _ (by omega)
  refine ⟨h.write _ (by rw [Mem.length_read]; exact hfits), fun i hi => ?_⟩
  have hle := slot_le ksize hi
  have hwindow : (f.bytes.write r.start (f.bytes.read t.data (t.len * stride ksize))).read
      (r.start + i * stride ksize) (stride ksize) = f.bytes.read (t.data + i * stride ksize) (stride ksize) := by
    rw [Mem.read_write_window _ _ _ (by rw [Mem.length_read]; exact hle), Mem.take_drop_read hle]
  exact (congrArg (slotOf ksize) hwindow).trans (h.heap.2 i (by omega))

/-- The swap of the descriptor. -/
theorem Copied.swap (h : Copied handle t s r f) (hsize : newcapOf t.cap * stride ksize < 2 ^ 64) :
    Moved handle t s r (f.write (handle + DATA_OFF) (leBytes 8 r.start ++ leBytes 8 (newcapOf t.cap))) := by
  obtain ⟨hspare, hslots⟩ := h
  have hin := f.inside r hspare.live
  have haddr := f.addressable
  have hblock := hspare.heap.1.handle_inside
  have hlen := hspare.heap.1.len_le
  have hnew := hspare.heap.1.cap_lt_newcap
  have hcap : newcapOf t.cap < 2 ^ 64 := by
    have hle : newcapOf t.cap * 1 ≤ newcapOf t.cap * stride ksize := Nat.mul_le_mul_left _ (by rw [stride]; omega)
    omega
  have hstart : r.start < 2 ^ 64 := by
    have hstop := hin.2
    simp only [Range.stop] at hstop
    omega
  have hword : ∀ k, k + 8 ≤ 16 → (f.bytes.write (handle + DATA_OFF)
      (leBytes 8 r.start ++ leBytes 8 (newcapOf t.cap))).word (handle + DATA_OFF + k) =
      getU64 (leBytes 8 r.start ++ leBytes 8 (newcapOf t.cap)) k := by
    intro k hk
    rw [Mem.word, Mem.read_write_window _ _ _ (by simp; omega), getU64]
  have hapart := (apart_of_mem f.apart hspare.live hspare.heap.1.block
    fun heq => hspare.ne_handle (congrArg Range.start heq)).2
  have hdata : DATA_OFF = 16 := rfl
  have hoff : CAP_OFF = 24 := rfl
  have hlenoff : LEN_OFF = 32 := rfl
  have hblocklen : HEAP_SIZE = 40 := rfl
  simp only [Range.stop] at hapart
  refine ⟨hspare.ne_data, slotAt ksize (f.bytes.write (handle + DATA_OFF)
    (leBytes 8 r.start ++ leBytes 8 (newcapOf t.cap))) r.start,
      ⟨⟨hspare.heap.1.block, ?_, ?_, ?_, ?_, hspare.ne_handle, ?_⟩,
    fun i _ => rfl⟩, fun i hi => ?_⟩
  · exact (hword 0 (by omega)).trans (getU64_leBytes hstart _)
  · have hsecond : getU64 (leBytes 8 r.start ++ leBytes 8 (newcapOf t.cap)) 8 = newcapOf t.cap := by
      have hdrop : (leBytes 8 r.start ++ leBytes 8 (newcapOf t.cap)).drop 8 = leBytes 8 (newcapOf t.cap) := by simp
      rw [getU64, hdrop, take_leBytes (Nat.le_refl 8), leNat_leBytes (by simpa using hcap)]
    exact (hword 8 (by omega)).trans hsecond
  · rw [File.bytes_write, Mem.word_write_disjoint (by simp; omega)]
    exact hspare.heap.1.len
  · show t.len ≤ newcapOf t.cap
    omega
  · right
    rw [← hspare.len]
    exact ⟨newcap_pos _, hspare.live⟩
  · have hle := slot_le ksize (show i < newcapOf t.cap by omega)
    have hrlen := hspare.len
    have hread : (f.bytes.write (handle + DATA_OFF) (leBytes 8 r.start ++ leBytes 8 (newcapOf t.cap))).read
        (r.start + i * stride ksize) (stride ksize) = f.bytes.read (r.start + i * stride ksize) (stride ksize) :=
      Mem.read_write_disjoint (by simp; omega)
    exact (congrArg (slotOf ksize) hread).trans (hslots i hi)

theorem Moved.free {n : Nat} (h : Moved handle t s r f) (hdata : t.data ≠ handle) :
    Moved handle t s r (f.free ⟨t.data, n⟩) := by
  obtain ⟨hne, s', hheld, hslots⟩ := h
  refine ⟨hne, s', hheld.frame fun b hb => ?_, hslots⟩
  have hlive : b ∈ f.live ∧ b.start ≠ t.data := by
    rcases hb with rfl | ⟨hcap, rfl⟩
    · exact ⟨hheld.1.block, hdata.symm⟩
    · exact ⟨(hheld.1.array.resolve_left (by omega)).2, hne⟩
  exact ⟨(List.mem_erase_of_ne fun heq => hlive.2 (congrArg Range.start heq)).mpr hlive.1, fun _ _ _ => rfl⟩

/-- What `grow` does once it has its new block. -/
theorem copyInto_spec (r : Range) (hsize : newcapOf t.cap * stride ksize < 2 ^ 64) (hdata : t.data ≠ handle) :
    Prog.Spec (Under w₀ a.stack (Spare handle t s r)) (copyInto a handle ksize t.data t.cap t.len r.start)
      (fun _ w => Under w₀ a.stack (Moved handle t s r) w) (Kept a handle t s w₀) fun _ => True := by
  rw [copyInto]
  apply Prog.Spec.bind (Q := fun _ => Under w₀ a.stack (Copied handle t s r))
  · rw [copySlots]
    by_cases hpos : 0 < t.len
    · rw [if_pos hpos]
      apply Prog.Spec.assume (φ := checkedMul t.len (stride ksize) lengthOverflow = .ok (t.len * stride ksize))
      · intro w hw
        have hlt := hw.1.heap.1.cap_lt
        have hle := Nat.mul_le_mul_right (stride ksize) hw.1.heap.1.len_le
        exact if_pos (by omega)
      intro hcheck
      rw [hcheck, Prog.lift_ok, pure_bind]
      apply Prog.Spec.bind (getInto_under (fun f hf => ?_) fun e w he hw => ⟨he, hw.mono fun f hf => hf.heap⟩)
      · intro buf
        apply set_under (fun f hf => ?_) (fun f hf => ?_) (fun _ _ => trivial)
          fun e w he hw => ⟨he, hw.mono fun f hf => hf.1.heap⟩
        · have hin := f.inside r hf.1.live
          have hnew := hf.1.heap.1.cap_lt_newcap
          have hle := Nat.mul_le_mul_right (stride ksize) (Nat.le_trans hf.1.heap.1.len_le (Nat.le_of_lt hnew))
          have hlen := hf.1.len
          simp only [Range.stop] at hin
          rw [hf.2, Mem.length_read]
          omega
        · rw [hf.2]
          exact hf.1.copy
      · have hin := (hf.heap.1.array_inside (Nat.lt_of_lt_of_le hpos hf.heap.1.len_le)).2
        have hle := Nat.mul_le_mul_right (stride ksize) hf.heap.1.len_le
        omega
    · rw [if_neg hpos]
      exact Prog.Spec.pure fun w hw => hw.mono fun f hf => ⟨hf, fun i hi => absurd (Nat.zero_lt_of_lt hi) hpos⟩
  · intro u
    apply Prog.Spec.bind (Q := fun _ => Under w₀ a.stack (Moved handle t s r))
    · apply set_under (fun f hf => ?_) (fun f hf => hf.swap hsize) (fun _ _ => trivial)
        fun e w he hw => ⟨he, hw.mono fun f hf => hf.1.heap⟩
      have hblock := hf.1.heap.1.handle_inside
      have hoff : DATA_OFF = 16 := rfl
      rw [List.length_append, length_leBytes, length_leBytes]
      omega
    · intro u
      by_cases hnull : t.data ≠ 0
      · rw [if_pos hnull]
        apply Prog.Spec.bind (attempt_dealloc_under (fun f hf => hf) (fun f hf _ => hf.free hdata) fun _ _ => trivial)
        exact fun _ => Prog.Spec.pure fun w hw => hw
      · rw [if_neg hnull]
        exact Prog.Spec.pure fun w hw => hw

/-- `grow` moves the elements to an array with room for more, or fails and leaves them. -/
theorem grow_spec : Prog.Spec (Under w₀ a.stack (Holds handle t s)) (grow a handle ksize)
    (fun _ w => ∃ r, Under w₀ a.stack (Moved handle t s r) w)
    (fun e w => Failure a ksize w₀ t e w ∧ Under w₀ a.stack (Holds handle t s) w) fun _ => True := by
  apply Prog.Spec.assume (φ := t.cap < newcapOf t.cap ∧ t.data ≠ handle)
    fun w hw => ⟨hw.1.1.cap_lt_newcap, hw.1.1.apart⟩
  intro ⟨hcap, hdata⟩
  rw [grow]
  apply Prog.Spec.bind_value (readMeta_spec.onError fun e w he => ⟨.inl (.inl he.1), he.2⟩)
  show Prog.Spec _ (if newcapOf t.cap ≤ t.cap then _ else _) _ _ _
  rw [if_neg (Nat.not_le.mpr hcap)]
  by_cases hsize : newcapOf t.cap * stride ksize < 2 ^ 64
  · rw [checkedMul, if_pos hsize, Prog.lift_ok, pure_bind]
    apply Prog.Spec.bind (alloc_under (fun f r hr hf hlen => Spare.of_alloc hf hr hlen) (fun _ _ => trivial)
      fun e w he hw => ⟨.inl he, hw⟩)
    intro r
    exact (copyInto_spec r hsize hdata).weaken (fun _ h => h) (fun _ w hw => ⟨r, hw⟩)
      (fun e w he => ⟨.inl (.inl he.1), he.2⟩) fun _ h => h
  · rw [checkedMul, if_neg hsize]
    exact Prog.Spec.fail fun w hw => ⟨.inr ⟨rfl, by omega⟩, hw⟩

end Grow

/-! ### Push and pop -/

structure Good (cmp : Key ksize → Key ksize → Ordering) (es : Multiset (Entry ksize)) (t : Info)
    (s : Nat → Entry ksize) : Prop where
  ordered : Heap.Ordered (le cmp) s t.len
  contents : Heap.contents s t.len = es

def Heaped (cmp : Key ksize → Key ksize → Ordering) (handle : Nat) (es : Multiset (Entry ksize)) (f : File) : Prop :=
  ∃ t s, Good cmp es t s ∧ Holds handle t s f

section Commit

variable {es : Multiset (Entry ksize)} {w : World}

theorem Good.push [Std.TransCmp cmp] (h : Good cmp es t s) (e : Entry ksize) :
    Good cmp (e ::ₘ es) { t with len := t.len + 1 } (Heap.place (pushMoves cmp s e t.len) s) := by
  obtain ⟨hordered, hcontents⟩ := Heap.up_spec lawful (h.ordered.lifting (e := e)) (Nat.lt_succ_self t.len)
    (Nat.le_refl t.len)
  refine ⟨hordered, hcontents.trans ?_⟩
  rw [Heap.around, Multiset.range_succ, Multiset.erase_cons_head]
  exact congrArg _ h.contents

theorem Good.pop [Std.TransCmp cmp] (h : Good cmp es t s) (hlen : t.len = n + 2) :
    Good cmp (es.erase (s 0)) { t with len := n + 1 } (Heap.place (popMoves cmp s (n + 1)) s) := by
  have hshort : Heap.Ordered (le cmp) s (n + 1) := fun i hpos hi => h.ordered i hpos (by omega)
  obtain ⟨hordered, hcontents⟩ := Heap.down_spec lawful (hshort.lowering (e := s (n + 1))) (Nat.succ_pos n)
    (Nat.le_of_eq (Nat.zero_add _).symm)
  refine ⟨hordered, hcontents.trans ?_⟩
  have hall := Heap.around_root s n
  rw [← hlen, h.contents] at hall
  rw [← hall, Multiset.erase_cons_head]

/-- The batch of a push lands, and the heap has one more element. -/
theorem commit_spec (h : Good cmp es t s) {es' : Multiset (Entry ksize)} {moves : List (Nat × Entry ksize)}
    (hn : n ≤ t.cap)
    (honce : ∀ m ∈ moves, m.1 < t.cap) (hgood : Good cmp es' { t with len := n } (Heap.place moves s)) :
    Prog.Spec (Under w₀ a.stack (Holds handle t s)) (setBatched a.stack (siftBatch t.data handle n moves))
      (fun _ w => Under w₀ a.stack (Heaped cmp handle es') w)
      (fun e w => IoFailed w₀ e ∧ Under w₀ a.stack (Heaped cmp handle es) w) fun _ => True := by
  apply setBatched_under
  · exact fun f hf => (hf.write_batch honce hn).1
  · exact fun f hf => ⟨_, _, hgood, (hf.write_batch honce hn).2⟩
  · exact fun _ _ => trivial
  · exact fun e w he hw => ⟨he, hw.mono fun f hf => ⟨t, s, h, hf⟩⟩

theorem Good.heaped (h : Good cmp es t s) (hw : Under w₀ a.stack (Holds handle t s) w) :
    Under w₀ a.stack (Heaped cmp handle es) w := hw.mono fun _ hf => ⟨t, s, h, hf⟩

theorem pushRound_spec [Std.TransCmp cmp] (h : Good cmp es t s) (e : Entry ksize) (attempts : Nat)
    (hlen : t.len < t.cap) :
    Prog.Spec (Under w₀ a.stack (Holds handle t s)) (push a handle cmp e.1 e.2 (attempts + 1))
      (fun _ w => Under w₀ a.stack (Heaped cmp handle (e ::ₘ es)) w)
      (fun err w => IoFailed w₀ err ∧ Under w₀ a.stack (Heaped cmp handle es) w) fun _ => True := by
  apply Prog.Spec.assume (φ := ¬ (t.data = 0 ∨ t.cap ≤ t.len))
  · rintro w hw (hdata | hcap)
    · have hzero := hw.1.1.data_zero.mp hdata
      omega
    · omega
  intro hroom
  have herr : ∀ err w, Kept a handle t s w₀ err w → IoFailed w₀ err ∧ Under w₀ a.stack (Heaped cmp handle es) w :=
    fun err w he => ⟨he.1, h.heaped he.2⟩
  rw [push]
  apply Prog.Spec.bind_value (readMeta_spec.onError herr)
  show Prog.Spec _ (if t.data = 0 ∨ t.cap ≤ t.len then _ else _) _ _ _
  rw [if_neg hroom]
  apply Prog.Spec.bind_value ((pushWrites_spec e hlen).onError herr)
  apply commit_spec h hlen _ (h.push e)
  exact fun m hm => Nat.lt_of_lt_of_le ((pushMoves_once s e t.len).inside m hm) hlen

/-- A push adds its element, or fails and leaves the elements alone. -/
theorem push_spec [Std.TransCmp cmp] (h : Good cmp es t s) (e : Entry ksize) (attempts : Nat) :
    Prog.Spec (Under w₀ a.stack (Holds handle t s)) (push a handle cmp e.1 e.2 (attempts + 2))
      (fun _ w => Under w₀ a.stack (Heaped cmp handle (e ::ₘ es)) w)
      (fun err w => Failure a ksize w₀ t err w ∧ Under w₀ a.stack (Heaped cmp handle es) w) fun _ => True := by
  have hfail : ∀ err w, IoFailed w₀ err ∧ Under w₀ a.stack (Heaped cmp handle es) w →
      Failure a ksize w₀ t err w ∧ Under w₀ a.stack (Heaped cmp handle es) w := fun err w he => ⟨.inl (.inl he.1), he.2⟩
  by_cases hfull : t.data = 0 ∨ t.cap ≤ t.len
  · rw [push]
    apply Prog.Spec.bind_value (readMeta_spec.onError fun err w he => hfail err w ⟨he.1, h.heaped he.2⟩)
    show Prog.Spec _ (if t.data = 0 ∨ t.cap ≤ t.len then _ else _) _ _ _
    rw [if_pos hfull]
    apply Prog.Spec.assume (φ := t.len < newcapOf t.cap)
      fun w hw => Nat.lt_of_le_of_lt hw.1.1.len_le hw.1.1.cap_lt_newcap
    intro hroom
    apply Prog.Spec.bind (grow_spec.onError fun err w he => ⟨he.1, h.heaped he.2⟩)
    intro u w hw
    obtain ⟨r, ⟨-, s', hheld, hslots⟩, hq⟩ := hw
    have hgood : Good cmp es ⟨r.start, newcapOf t.cap, t.len⟩ s' :=
      ⟨h.ordered.congr hslots, (Heap.contents_congr hslots).trans h.contents⟩
    exact (pushRound_spec hgood e attempts hroom).onError hfail w ⟨hheld, hq⟩
  · exact (pushRound_spec h e (attempts + 1) (by omega)).onError hfail

/-- What a pop may answer, and what it leaves. -/
inductive Taken (cmp : Key ksize → Key ksize → Ordering) (es : Multiset (Entry ksize)) :
    Option (Entry ksize) → Multiset (Entry ksize) → Prop
  | empty (h : es = 0) : Taken cmp es none es
  | least (e : Entry ksize) (hmem : e ∈ es) (hleast : ∀ x ∈ es, cmp e.1 x.1 ≠ .gt) : Taken cmp es (some e) (es.erase e)

theorem Good.root [Std.TransCmp cmp] (h : Good cmp es t s) (hlen : t.len ≠ 0) :
    Taken cmp es (some (s 0)) (es.erase (s 0)) := by
  apply Taken.least
  · rw [← h.contents, Heap.mem_contents]
    exact ⟨0, Nat.pos_of_ne_zero hlen, rfl⟩
  · intro x hx
    rw [← h.contents, Heap.mem_contents] at hx
    obtain ⟨i, hi, rfl⟩ := hx
    exact h.ordered.root_le lawful hi

theorem removeRoot_spec [Std.TransCmp cmp] (h : Good cmp es t s) (hlen : t.len ≠ 0) :
    Prog.Spec (Under w₀ a.stack (Holds handle t s)) (removeRoot a handle cmp t.data t.len)
      (fun _ w => Under w₀ a.stack (Heaped cmp handle (es.erase (s 0))) w)
      (fun err w => IoFailed w₀ err ∧ Under w₀ a.stack (Heaped cmp handle es) w) fun _ => True := by
  rw [removeRoot]
  by_cases hone : t.len = 1
  · have hgood : Good cmp (es.erase (s 0)) { t with len := 0 } s := by
      refine ⟨fun i _ hi => absurd hi (Nat.not_lt_zero i), ?_⟩
      have hcontents := h.contents
      rw [hone, Heap.contents_succ] at hcontents
      rw [← hcontents, Multiset.erase_cons_head]
    rw [if_pos hone]
    apply set_under (fun f hf => ?_) (fun f hf => ?_) (fun _ _ => trivial) fun err w he hw => ⟨he, h.heaped hw⟩
    · have hblock := hf.1.handle_inside
      have hoff : LEN_OFF = 32 := rfl
      rw [length_leBytes]
      omega
    · exact ⟨_, _, hgood, hf.write_len (Nat.zero_le _)⟩
  · obtain ⟨n, hn⟩ : ∃ n, t.len = n + 2 := ⟨t.len - 2, by omega⟩
    apply Prog.Spec.assume (φ := n + 2 ≤ t.cap) fun w hw => hn ▸ hw.1.1.len_le
    intro hcap
    have herr : ∀ err w, Kept a handle t s w₀ err w → IoFailed w₀ err ∧ Under w₀ a.stack (Heaped cmp handle es) w :=
      fun err w he => ⟨he.1, h.heaped he.2⟩
    rw [if_neg hone, hn, show n + 2 - 1 = n + 1 from rfl]
    apply Prog.Spec.bind_value ((readSlot_spec hcap).onError herr)
    apply Prog.Spec.bind_value ((popWrites_spec (Nat.succ_pos n) (Nat.le_of_succ_le hcap)).onError herr)
    apply commit_spec h (Nat.le_of_succ_le hcap) _ (h.pop hn)
    exact fun m hm => Nat.lt_of_lt_of_le ((popMoves_once s (Nat.succ_pos n)).inside m hm) (Nat.le_of_succ_le hcap)

/-- A pop takes a least element, or fails and leaves the elements alone. -/
theorem pop_spec [Std.TransCmp cmp] (h : Good cmp es t s) :
    Prog.Spec (Under w₀ a.stack (Holds handle t s)) (pop a handle cmp)
      (fun o w => ∃ es', Taken cmp es o es' ∧ Under w₀ a.stack (Heaped cmp handle es') w)
      (fun err w => IoFailed w₀ err ∧ Under w₀ a.stack (Heaped cmp handle es) w) fun _ => True := by
  have herr : ∀ err w, Kept a handle t s w₀ err w → IoFailed w₀ err ∧ Under w₀ a.stack (Heaped cmp handle es) w :=
    fun err w he => ⟨he.1, h.heaped he.2⟩
  rw [pop]
  apply Prog.Spec.bind_value (readMeta_spec.onError herr)
  show Prog.Spec _ (if t.len = 0 then _ else _) _ _ _
  by_cases hlen : t.len = 0
  · have hempty : es = 0 := by
      rw [← h.contents, hlen]
      rfl
    rw [if_pos hlen]
    exact Prog.Spec.pure fun w hw => ⟨es, .empty hempty, h.heaped hw⟩
  · rw [if_neg hlen]
    apply Prog.Spec.assume (φ := 0 < t.cap) fun w hw => Nat.lt_of_lt_of_le (Nat.pos_of_ne_zero hlen) hw.1.1.len_le
    intro hcap
    apply Prog.Spec.bind_value ((readSlot_spec hcap).onError herr)
    apply (removeRoot_spec h hlen).bind
    intro u
    apply Prog.Spec.pure
    intro w hw
    rw [readKey_image, slotVal_image]
    exact ⟨_, h.root hlen, hw⟩

/-- What draining answers: least elements first, and all of them if there are calls enough. -/
structure Drained (cmp : Key ksize → Key ksize → Ordering) (calls : Nat) (es : Multiset (Entry ksize))
    (xs : List (Entry ksize)) (rest : Multiset (Entry ksize)) : Prop where
  sorted : xs.Pairwise fun x y => cmp x.1 y.1 ≠ .gt
  split : ↑xs + rest = es
  all : es.card ≤ calls → rest = 0

theorem drain_spec [Std.TransCmp cmp] (calls : Nat) :
    Prog.Spec (Under w₀ a.stack (Heaped cmp handle es)) (drain a handle cmp calls)
      (fun xs w => ∃ rest, Drained cmp calls es xs rest ∧ Under w₀ a.stack (Heaped cmp handle rest) w)
      (fun err w => IoFailed w₀ err ∧ ∃ rest, Under w₀ a.stack (Heaped cmp handle rest) w) fun _ => True := by
  induction calls generalizing es with
  | zero =>
      refine Prog.Spec.pure fun w hw => ⟨es, ⟨.nil, zero_add _, fun hcard => ?_⟩, hw⟩
      exact Multiset.card_eq_zero.mp (Nat.le_zero.mp hcard)
  | succ calls ih =>
      rw [drain]
      apply Prog.Spec.bind (Q := fun o w => ∃ es', Taken cmp es o es' ∧ Under w₀ a.stack (Heaped cmp handle es') w)
      · intro w hw
        obtain ⟨⟨t, s, hgood, hheld⟩, hq⟩ := hw
        have hpop : Prog.Spec (Under w₀ a.stack (Holds handle t s)) (pop a handle cmp)
            (fun o w => ∃ es', Taken cmp es o es' ∧ Under w₀ a.stack (Heaped cmp handle es') w)
            (fun err w => IoFailed w₀ err ∧ ∃ rest, Under w₀ a.stack (Heaped cmp handle rest) w) fun _ => True :=
          (pop_spec hgood).onError fun err w he => ⟨he.1, es, he.2⟩
        exact hpop w ⟨hheld, hq⟩
      · intro o
        apply Prog.Spec.exists
        intro es'
        apply Prog.Spec.given
        intro htaken
        cases htaken with
        | empty hempty => exact Prog.Spec.pure fun w hw => ⟨es, ⟨.nil, zero_add _, fun _ => hempty⟩, hw⟩
        | least e hmem hleast =>
            apply Prog.Spec.bind ih
            intro xs
            apply Prog.Spec.pure
            rintro w ⟨rest, hdrained, hw⟩
            refine ⟨rest, ⟨List.pairwise_cons.mpr ⟨fun x hx => hleast x ?_, hdrained.sorted⟩, ?_, fun hcard => ?_⟩, hw⟩
            · have hin : x ∈ es.erase e := hdrained.split ▸ Multiset.mem_add.mpr (.inl (Multiset.mem_coe.mpr hx))
              exact Multiset.mem_of_mem_erase hin
            · rw [← Multiset.cons_coe, Multiset.cons_add, hdrained.split, Multiset.cons_erase hmem]
            · have hless := Multiset.card_erase_of_mem hmem
              exact hdrained.all (by rw [hless]; exact Nat.pred_le_iff.mpr hcard)

end Commit

end BStackBinaryHeap

end BStackRaii
