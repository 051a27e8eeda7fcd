import BStackRaii.Proof.Deque.Disk
/-!
# The generators of a deque

What each generator computes from the file of a deque, and the deque that its batch makes.
-/

namespace BStackRaii

namespace BStackDeque

variable {f : File} {handle i : Nat} {t : Ring} {x x' : Deque} {v : UInt64} {r : Range}

/-- The generator has the result `o`, and its batch makes the deque `x'`. -/
def Commits {α : Type} (handle : Nat) (f : File) (g : Gen (Batch × α)) (o : α) (x' : Deque) : Prop :=
  ∃ ws, g.eval f = .ok (ws, o) ∧ (∀ y ∈ ws, y.1 + y.2.length ≤ f.len) ∧ Holds handle x' (File.writeAll ws f)

theorem RingAt.field_inside (h : RingAt f handle t) {k n : Nat} (hk : k + 8 ≤ 48) :
    (w8 (handle + k) n).1 + (w8 (handle + k) n).2.length ≤ f.len := by
  have hin := h.handle_inside
  simp only [w8, length_leBytes]
  omega

theorem RingAt.slot_inside (h : RingAt f handle t) {n : Nat} (hi : i < t.cap) :
    (w8 (t.data + i * 8) n).1 + (w8 (t.data + i * 8) n).2.length ≤ f.len := by
  have hin := (h.array_inside (by omega)).2
  simp only [w8, length_leBytes]
  omega

theorem RingAt.eval_plan {α : Type} (h : RingAt f handle t) (plan : List Nat → Except IoError (Batch × α)) :
    (updateGen (ringReads handle) (fun _ => .ok []) fun v1 _ => plan v1).eval f =
      plan ((ringReads handle).map f.bytes.word) :=
  eval_updateGen [] h.reads_inside rfl fun _ hoff => absurd hoff List.not_mem_nil

/-! ### Pushing -/

theorem pushBack_commits (h : Holds handle x f) (hroom : x.ring.len < x.ring.cap) :
    Commits handle f (updateGen (ringReads handle) (fun _ => .ok []) fun v1 _ => backPlan handle v v1) true
      ⟨{ x.ring with len := x.ring.len + 1 }, x.items ++ [v]⟩ := by
  have hslot : (x.ring.head + x.ring.len) % x.ring.cap < x.ring.cap := Nat.mod_lt _ (by omega)
  obtain ⟨hring, hslots⟩ := h.ring.write_slot hslot v
  refine ⟨[w8 (x.ring.data + (x.ring.head + x.ring.len) % x.ring.cap * 8) v.toNat,
    w8 (handle + LEN_OFF) (x.ring.len + 1)], ?_, ?_, ⟨hring.write_len hroom, ?_⟩⟩
  · rw [h.ring.eval_plan]
    simp only [backPlan, h.ring.reads, if_pos hroom, h.ring.wrapping (Nat.le_of_lt hroom), h.ring.slotAddr_ok hslot]
    rfl
  · intro y hy
    simp only [List.mem_cons, List.not_mem_nil, or_false] at hy
    rcases hy with rfl | rfl
    · exact h.ring.slot_inside hslot
    · exact h.ring.field_inside (by decide)
  · rw [← h.items]
    refine Eq.trans (Cyclic.window_congr fun i hi => ?_) (Cyclic.push_back v hroom)
    have hlt : (x.ring.head + i) % x.ring.cap < x.ring.cap := Nat.mod_lt _ (by omega)
    exact (slot_kept hring (by decide) hlt).trans (hslots _ hlt)

theorem pushFront_commits (h : Holds handle x f) (hroom : x.ring.len < x.ring.cap) :
    Commits handle f (updateGen (ringReads handle) (fun _ => .ok []) fun v1 _ => frontPlan handle v v1) true
      ⟨{ x.ring with
          head := (x.ring.head + (x.ring.cap - 1)) % x.ring.cap
          len := x.ring.len + 1 }, v :: x.items⟩ := by
  have hslot : (x.ring.head + (x.ring.cap - 1)) % x.ring.cap < x.ring.cap := Nat.mod_lt _ (by omega)
  obtain ⟨hring, hslots⟩ := h.ring.write_slot hslot v
  have hhead := hring.write_head hslot
  refine ⟨[w8 (x.ring.data + (x.ring.head + (x.ring.cap - 1)) % x.ring.cap * 8) v.toNat,
    w8 (handle + HEAD_OFF) ((x.ring.head + (x.ring.cap - 1)) % x.ring.cap), w8 (handle + LEN_OFF) (x.ring.len + 1)],
    ?_, ?_, ⟨hhead.write_len hroom, ?_⟩⟩
  · rw [h.ring.eval_plan]
    simp only [frontPlan, h.ring.reads, if_pos hroom, h.ring.wrapping (Nat.sub_le x.ring.cap 1),
      h.ring.slotAddr_ok hslot]
    rfl
  · intro y hy
    simp only [List.mem_cons, List.not_mem_nil, or_false] at hy
    rcases hy with rfl | rfl | rfl
    · exact h.ring.slot_inside hslot
    · exact h.ring.field_inside (by decide)
    · exact h.ring.field_inside (by decide)
  · have hhead_lt := h.ring.head_lt
    have hkept : ∀ j < x.ring.cap, slotAt (((f.write (x.ring.data + (x.ring.head + (x.ring.cap - 1)) % x.ring.cap * 8)
        (leBytes 8 v.toNat)).write (handle + HEAD_OFF)
          (leBytes 8 ((x.ring.head + (x.ring.cap - 1)) % x.ring.cap))).write
        (handle + LEN_OFF) (leBytes 8 (x.ring.len + 1))).bytes x.ring.data j =
        Function.update (slotAt f.bytes x.ring.data) ((x.ring.head + (x.ring.cap - 1)) % x.ring.cap) v j := by
      intro j hj
      have hlen := slot_kept (i := j) (k := LEN_OFF) (n := x.ring.len + 1) hhead (by decide) hj
      have hmoved := slot_kept (i := j) (k := HEAD_OFF) (n := (x.ring.head + (x.ring.cap - 1)) % x.ring.cap) hring
        (by decide) hj
      exact (hlen.trans hmoved).trans (hslots j hj)
    rw [← h.items]
    have hpos : 0 < x.ring.cap := by omega
    have hlt : x.ring.head < x.ring.cap := by omega
    exact (Cyclic.window_congr fun i _ => hkept _ (Nat.mod_lt _ hpos)).trans (Cyclic.push_front v hroom hlt)

theorem full_commits (h : Holds handle x f) (hfull : ¬ x.ring.len < x.ring.cap)
    {plan : List Nat → Except IoError (Batch × Bool)} (hplan : plan = backPlan handle v ∨ plan = frontPlan handle v) :
    Commits handle f (updateGen (ringReads handle) (fun _ => .ok []) fun v1 _ => plan v1) false x := by
  refine ⟨[], ?_, fun y hy => absurd hy List.not_mem_nil, h⟩
  rw [h.ring.eval_plan]
  rcases hplan with rfl | rfl
  · simp only [backPlan, h.ring.reads, if_neg hfull]
  · simp only [frontPlan, h.ring.reads, if_neg hfull]

/-! ### Popping -/

/-- The round of reads of a pop that finds an element. -/
theorem RingAt.popReads_ok (h : RingAt f handle t) (hlen : t.len ≠ 0) (back : Ring → Nat) (hback : back t < t.len) :
    popReads back ((ringReads handle).map f.bytes.word) = .ok [t.data + (t.head + back t) % t.cap * 8] ∧
      t.data + (t.head + back t) % t.cap * 8 + 8 ≤ f.len := by
  have hle := h.len_le
  have hslot : (t.head + back t) % t.cap < t.cap := Nat.mod_lt _ (by omega)
  constructor
  · simp only [popReads, h.reads, if_neg hlen, ringIndex, if_neg (show t.cap ≠ 0 by omega),
      h.wrapping (show back t ≤ t.cap by omega)]
    show (do
      let slot ← slotAddr t.data ((t.head + back t) % t.cap)
      pure [slot] : Except IoError (List Nat)) = _
    rw [h.slotAddr_ok hslot]
    rfl
  · have hin := h.slot_inside (n := 0) hslot
    simpa only [w8, length_leBytes] using hin

theorem popBack_commits (h : Holds handle x f) (a : Allocator) :
    ∃ plan x', popBack a handle = atomicUpdate a (ringReads handle) (popReads fun t => t.len - 1) plan ∧
      x'.items = x.items.dropLast ∧ x'.ring.data = x.ring.data ∧ x'.ring.cap = x.ring.cap ∧
      Commits handle f (updateGen (ringReads handle) (popReads fun t => t.len - 1) plan) x.items.getLast? x' := by
  by_cases hlen : x.ring.len = 0
  · have hitems : x.items = [] := by
      rw [← h.items, hlen]
      rfl
    refine ⟨_, x, rfl, by rw [hitems]; rfl, rfl, rfl, [], ?_, fun y hy => absurd hy List.not_mem_nil, h⟩
    rw [eval_updateGen [] h.ring.reads_inside (by simp only [popReads, h.ring.reads, if_pos hlen])
      fun _ hoff => absurd hoff List.not_mem_nil]
    simp only [h.ring.reads, hlen, ne_eq, not_true_eq_false, if_false, hitems]
    rfl
  · obtain ⟨hreads, hin⟩ := h.ring.popReads_ok hlen (fun t => t.len - 1) (by show x.ring.len - 1 < _; omega)
    have hle := h.ring.len_le
    have hpos : 0 < x.ring.cap := by omega
    refine ⟨_, ⟨{ x.ring with len := x.ring.len - 1 }, x.items.dropLast⟩, rfl, rfl, rfl, rfl,
      [w8 (handle + LEN_OFF) (x.ring.len - 1)], ?_, ?_, h.ring.write_len (by omega), ?_⟩
    · rw [eval_updateGen _ h.ring.reads_inside hreads (by simpa using hin)]
      simp only [h.ring.reads, ne_eq, hlen, not_false_eq_true, if_true]
      rw [← h.items, Cyclic.getLast?_window hlen]
      rfl
    · intro y hy
      cases List.mem_singleton.mp hy
      exact h.ring.field_inside (by decide)
    · have hkept : ∀ j < x.ring.cap,
        slotAt (f.write (handle + LEN_OFF) (leBytes 8 (x.ring.len - 1))).bytes x.ring.data j =
          slotAt f.bytes x.ring.data j := fun j hj => slot_kept h.ring (by decide) hj
      show _ = x.items.dropLast
      rw [← h.items, ← Cyclic.pop_back]
      exact Cyclic.window_congr fun i _ => hkept _ (Nat.mod_lt _ hpos)

theorem popFront_commits (h : Holds handle x f) (a : Allocator) :
    ∃ plan x', popFront a handle = atomicUpdate a (ringReads handle) (popReads fun _ => 0) plan ∧
      x'.items = x.items.tail ∧ x'.ring.data = x.ring.data ∧ x'.ring.cap = x.ring.cap ∧
      Commits handle f (updateGen (ringReads handle) (popReads fun _ => 0) plan) x.items.head? x' := by
  by_cases hlen : x.ring.len = 0
  · have hitems : x.items = [] := by
      rw [← h.items, hlen]
      rfl
    refine ⟨_, x, rfl, by rw [hitems]; rfl, rfl, rfl, [], ?_, fun y hy => absurd hy List.not_mem_nil, h⟩
    rw [eval_updateGen [] h.ring.reads_inside (by simp only [popReads, h.ring.reads, if_pos hlen])
      fun _ hoff => absurd hoff List.not_mem_nil]
    simp only [h.ring.reads, hlen, ne_eq, not_true_eq_false, if_false, hitems]
    rfl
  · obtain ⟨hreads, hin⟩ := h.ring.popReads_ok hlen (fun _ => 0) (by show 0 < x.ring.len; omega)
    have hle := h.ring.len_le
    have hpos : 0 < x.ring.cap := by omega
    have hhead : (x.ring.head + 1) % x.ring.cap < x.ring.cap := Nat.mod_lt _ hpos
    have hring := h.ring.write_head hhead
    refine ⟨_, ⟨{ x.ring with head := (x.ring.head + 1) % x.ring.cap, len := x.ring.len - 1 }, x.items.tail⟩, rfl, rfl,
      rfl, rfl, [w8 (handle + HEAD_OFF) ((x.ring.head + 1) % x.ring.cap), w8 (handle + LEN_OFF) (x.ring.len - 1)],
      ?_, ?_, hring.write_len (by show x.ring.len - 1 ≤ x.ring.cap; omega), ?_⟩
    · rw [eval_updateGen _ h.ring.reads_inside hreads (by simpa using hin)]
      simp only [h.ring.reads, ne_eq, hlen, not_false_eq_true, if_true, ringIndex,
        if_neg (show x.ring.cap ≠ 0 by omega),
        h.ring.wrapping (show 1 ≤ x.ring.cap by omega)]
      rw [← h.items, Cyclic.head?_window hlen]
      rfl
    · intro y hy
      simp only [List.mem_cons, List.not_mem_nil, or_false] at hy
      rcases hy with rfl | rfl
      · exact h.ring.field_inside (by decide)
      · exact h.ring.field_inside (by decide)
    · have hkept : ∀ j < x.ring.cap,
        slotAt ((f.write (handle + HEAD_OFF) (leBytes 8 ((x.ring.head + 1) % x.ring.cap))).write
          (handle + LEN_OFF) (leBytes 8 (x.ring.len - 1))).bytes x.ring.data j = slotAt f.bytes x.ring.data j := by
        intro j hj
        have hlast := slot_kept (i := j) (k := LEN_OFF) (n := x.ring.len - 1) hring (by decide) hj
        have hfirst := slot_kept (i := j) (k := HEAD_OFF) (n := (x.ring.head + 1) % x.ring.cap) h.ring (by decide) hj
        exact hlast.trans hfirst
      show _ = x.items.tail
      rw [← h.items, ← Cyclic.pop_front]
      exact Cyclic.window_congr fun i _ => hkept _ (Nat.mod_lt _ hpos)

/-! ### Growing -/

/-- The block `r` is beside the deque. -/
structure Beside (handle : Nat) (x : Deque) (r : Range) (f : File) : Prop where
  holds : Holds handle x f
  live : r ∈ f.live
  handle_apart : r.stop ≤ handle ∨ handle + 48 ≤ r.start
  ring_apart : 0 < x.ring.cap → r.stop ≤ x.ring.data ∨ x.ring.data + x.ring.cap * 8 ≤ r.start

theorem Beside.write (h : Beside handle x r f) {n : Nat} (hi : i * 8 + 8 ≤ r.len) :
    Beside handle x r (f.write (r.start + i * 8) (leBytes 8 n)) := by
  refine ⟨h.holds.frame fun b hb => ?_, h.live, h.handle_apart, h.ring_apart⟩
  have hclear : b ∈ f.live ∧ (r.stop ≤ b.start ∨ b.stop ≤ r.start) := by
    rcases hb with rfl | ⟨hpos, rfl⟩
    · exact ⟨h.holds.ring.block, h.handle_apart⟩
    · exact ⟨(h.holds.ring.array.resolve_left (by omega)).2, h.ring_apart hpos⟩
  refine ⟨hclear.1, fun j hj hj' => ?_⟩
  obtain ⟨-, hapart⟩ := hclear
  simp only [Range.stop] at hapart hj'
  rw [File.bytes_write]
  rcases hapart with hle | hge
  · exact Mem.write_of_ge (by rw [length_leBytes]; omega)
  · exact Mem.write_of_lt (by omega)

/-- The copies of `refs` land in the slots of `r` from `i` on. -/
theorem Beside.copies (h : Beside handle x r f) (refs : List UInt64) (hfits : (i + refs.length) * 8 ≤ r.len) :
    ∃ ws, copyWrites r.start (refs.map UInt64.toNat) i = .ok ws ∧ (∀ y ∈ ws, y.1 + y.2.length ≤ f.len) ∧
      Beside handle x r (File.writeAll ws f) ∧
      (∀ j < i, slotAt (File.writeAll ws f).bytes r.start j = slotAt f.bytes r.start j) ∧
      ∀ j, (hj : j < refs.length) → slotAt (File.writeAll ws f).bytes r.start (i + j) = refs[j] := by
  induction refs generalizing f i with
  | nil =>
      exact ⟨[], rfl, fun y hy => absurd hy List.not_mem_nil, h, fun _ _ => rfl,
        fun j hj => absurd hj (Nat.not_lt_zero j)⟩
  | cons v refs ih =>
      rw [List.length_cons] at hfits
      have hin := f.inside r h.live
      have haddr := f.addressable
      simp only [Range.stop] at hin
      obtain ⟨ws, hws, hinside, hbeside, hbefore, hcopied⟩ :=
        ih (h.write (i := i) (n := v.toNat) (by omega)) (i := i + 1) (by omega)
      refine ⟨w8 (r.start + i * 8) v.toNat :: ws, ?_, ?_, hbeside, fun j hj => ?_, fun j hj => ?_⟩
      · rw [List.map_cons, copyWrites, if_pos (by omega), hws]
        rfl
      · intro y hy
        rcases List.mem_cons.mp hy with rfl | hy
        · simp only [w8, length_leBytes]
          omega
        · exact hinside y hy
      · refine (hbefore j (by omega)).trans ?_
        rw [slotAt, File.bytes_write, Mem.word_write_disjoint (by rw [length_leBytes]; omega)]
        rfl
      · cases j with
        | zero =>
            refine (hbefore i (Nat.lt_succ_self i)).trans ?_
            rw [slotAt, File.bytes_write, Mem.word_write_self v.toNat_lt, UInt64.ofNat_toNat]
            rfl
        | succ j =>
            have hnext := hcopied j (Nat.lt_of_succ_lt_succ hj)
            rw [show i + (j + 1) = i + 1 + j by omega]
            exact hnext

/-- The deque once its elements are in the block at `data`. -/
def Deque.moved (x : Deque) (data newcap : Nat) : Deque := ⟨⟨0, x.ring.len, newcap, data⟩, x.items⟩

theorem Beside.swap {newcap : Nat} (h : Beside handle x r f) (hr : r.len = newcap * 8) (hcap : x.ring.cap < newcap)
    (hslots : ∀ j, (hj : j < x.items.length) → slotAt f.bytes r.start j = x.items[j]) :
    Holds handle (x.moved r.start newcap) (File.writeAll [w8 (handle + DATA_OFF) r.start,
      w8 (handle + CAP_OFF) newcap, w8 (handle + HEAD_OFF) 0] f) := by
  have hin := f.inside r h.live
  have haddr := f.addressable
  have hle := h.holds.ring.len_le
  have hsmall : r.start < 2 ^ 64 ∧ newcap < 2 ^ 64 := by
    simp only [Range.stop] at hin
    omega
  have hlen : x.items.length = x.ring.len := by rw [← h.holds.items, Cyclic.length_window]
  have hkept : ∀ k n, k + 8 ≤ 48 → ∀ (g : File) j, j < newcap →
      slotAt (g.write (handle + k) (leBytes 8 n)).bytes r.start j = slotAt g.bytes r.start j := by
    intro k n hk g j hj
    have hapart := h.handle_apart
    simp only [Range.stop] at hapart
    rw [slotAt, File.bytes_write, Mem.word_write_disjoint (by rw [length_leBytes]; omega)]
    rfl
  simp only [File.writeAll, w8]
  refine ⟨⟨h.holds.ring.block, ?_, ?_, ?_, ?_, ?_, .inl ?_, ?_, .inr ⟨?_, ?_⟩⟩, ?_⟩
  · rw [field_write (.inr (.inl (by decide))) (by decide), if_neg (by decide),
      field_write (.inr (.inl (by decide))) hsmall.2, if_neg (by decide), field_write (.inl rfl) hsmall.1, if_pos rfl]
    rfl
  · rw [field_write (.inr (.inl (by decide))) (by decide), if_neg (by decide), field_write (.inl rfl) hsmall.2,
      if_pos rfl]
    rfl
  · rw [field_write (.inl rfl) (by decide), if_pos rfl]
    rfl
  · rw [field_write (.inr (.inr (by decide))) (by decide), if_neg (by decide),
      field_write (.inr (.inr (by decide))) hsmall.2, if_neg (by decide),
      field_write (.inr (.inr (by decide))) hsmall.1, if_neg (by decide)]
    exact h.holds.ring.len
  · show x.ring.len ≤ newcap
    omega
  · show 0 < newcap
    omega
  · show r.start ≠ handle
    have hapart := h.handle_apart
    simp only [Range.stop] at hapart
    omega
  · show 0 < newcap
    omega
  · show ⟨r.start, newcap * 8⟩ ∈ f.live
    rw [← hr]
    exact h.live
  · show Cyclic.window _ newcap 0 x.ring.len = x.items
    apply List.ext_getElem
    · rw [Cyclic.length_window, hlen]
    · intro j hj hj'
      rw [Cyclic.length_window] at hj
      have hmod : (0 + j) % newcap = j := by
        rw [Nat.zero_add]
        exact Nat.mod_eq_of_lt (by omega)
      simp only [Cyclic.window, List.getElem_map, List.getElem_range, hmod]
      have hlast := hkept HEAD_OFF 0 (by decide) ((f.write (handle + DATA_OFF) (leBytes 8 r.start)).write
        (handle + CAP_OFF) (leBytes 8 newcap)) j (by omega)
      have hmid := hkept CAP_OFF newcap (by decide) (f.write (handle + DATA_OFF) (leBytes 8 r.start)) j (by omega)
      have hfirst := hkept DATA_OFF r.start (by decide) f j (by omega)
      exact ((hlast.trans hmid).trans hfirst).trans (hslots j hj')

/-- A loop whose rounds all succeed. -/
theorem mapM_ok {α β : Type} {g : α → Except IoError β} {k : α → β} {l : List α} (hg : ∀ i ∈ l, g i = .ok (k i)) :
    l.mapM g = .ok (l.map k) := by
  induction l with
  | nil => rfl
  | cons i l ih =>
      rw [List.mapM_cons, hg i List.mem_cons_self, ih fun j hj => hg j (List.mem_cons_of_mem i hj)]
      rfl

theorem RingAt.growReads_ok {newcap : Nat} (h : RingAt f handle t) (hno : ¬ Abort newcap t) :
    growReads newcap ((ringReads handle).map f.bytes.word) =
      .ok ((List.range t.len).map fun i => t.data + (t.head + i) % t.cap * 8) := by
  have hle := h.len_le
  simp only [growReads, h.reads, if_neg hno]
  apply mapM_ok
  intro i hi
  have hlt := List.mem_range.mp hi
  rw [ringIndex, if_neg (by omega), h.wrapping (show i ≤ t.cap by omega)]
  exact h.slotAddr_ok (Nat.mod_lt _ (by omega))

/-- The elements as the swap reads them. -/
theorem Holds.growWords (h : Holds handle x f) :
    ((List.range x.ring.len).map fun i => x.ring.data + (x.ring.head + i) % x.ring.cap * 8).map f.bytes.word =
      x.items.map UInt64.toNat := by
  rw [← h.items, Cyclic.window, List.map_map, List.map_map]
  apply List.map_congr_left
  intro i _
  exact (UInt64.toNat_ofNat_of_lt' (Mem.word_lt ..)).symm

theorem grow_commits {newcap : Nat} (h : Beside handle x r f) (hr : r.len = newcap * 8) (hno : ¬ Abort newcap x.ring) :
    Commits handle f (updateGen (ringReads handle) (growReads newcap) (growPlan handle r.start newcap))
      (some (x.ring.data, x.ring.cap)) (x.moved r.start newcap) := by
  have hring := h.holds.ring
  have hle := hring.len_le
  have hcap : x.ring.cap < newcap := Nat.not_le.mp fun hcap => hno (.inr hcap)
  have hlen : x.items.length = x.ring.len := by rw [← h.holds.items, Cyclic.length_window]
  obtain ⟨ws, hws, hin, hbeside, -, hcopied⟩ := h.copies x.items (i := 0) (by omega)
  have hswap := hbeside.swap hr hcap fun j hj => (congrArg _ (Nat.zero_add j).symm).trans (hcopied j hj)
  refine ⟨ws ++ [w8 (handle + DATA_OFF) r.start, w8 (handle + CAP_OFF) newcap, w8 (handle + HEAD_OFF) 0], ?_, ?_, ?_⟩
  · rw [eval_updateGen _ hring.reads_inside (hring.growReads_ok hno), h.holds.growWords]
    · simp only [growPlan, hring.reads, if_neg hno, hws]
      rfl
    · intro off hoff
      obtain ⟨i, hi, rfl⟩ := List.mem_map.mp hoff
      have hlt := List.mem_range.mp hi
      have hslot := hring.slot_inside (n := 0) (i := (x.ring.head + i) % x.ring.cap) (Nat.mod_lt _ (by omega))
      simpa only [w8, length_leBytes] using hslot
  · intro y hy
    rcases List.mem_append.mp hy with hy | hy
    · exact hin y hy
    · simp only [List.mem_cons, List.not_mem_nil, or_false] at hy
      rcases hy with rfl | rfl | rfl
      · exact hring.field_inside (by decide)
      · exact hring.field_inside (by decide)
      · exact hring.field_inside (by decide)
  · rw [File.writeAll_append]
    exact hswap

/-- Somebody else made room. -/
theorem abort_commits {newcap newring : Nat} (h : Holds handle x f) (habort : Abort newcap x.ring) :
    Commits handle f (updateGen (ringReads handle) (growReads newcap) (growPlan handle newring newcap)) none x := by
  refine ⟨[], ?_, fun y hy => absurd hy List.not_mem_nil, h⟩
  rw [eval_updateGen [] h.ring.reads_inside (by simp only [growReads, h.ring.reads, if_pos habort])
    fun _ hoff => absurd hoff List.not_mem_nil]
  simp only [growPlan, h.ring.reads, if_pos habort]

end BStackDeque

end BStackRaii
