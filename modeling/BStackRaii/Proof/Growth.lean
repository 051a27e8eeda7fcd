import BStackRaii.Proof.Deque
import BStackRaii.Proof.Heap
import BStackRaii.Proof.HashMap
import BStackRaii.Proof.Faults
/-!
# Growths and their errors

A growth allocates the bigger block first. A step behind the allocation that fails leaves that block to nobody,
except for the reads of a bucket table: their errors are kept aside, and the table frees its spare block.
-/

namespace BStackRaii

/-- What a collection keeps in a file: its blocks but for the handle, and whether two values have the same elements. -/
structure Collection (S : Type) where
  holds : S → File → Prop
  blocks : S → List Range
  same : S → S → Prop

namespace Collection

variable {S : Type} (c : Collection S)

/-- A growth of `x` in file `k` is exact: an error leaves the descriptor, the elements and the blocks of the file, and
a return leaves the elements, in one block in the place of the old one. -/
def Exact (k : Nat) (x : S) (w : World) (r : Run IoError World Unit) : Prop :=
  match r.out with
  | .error _ => c.holds x (r.final.files k) ∧ (r.final.files k).live.Perm (w.files k).live
  | .ok () => ∃ x' b, c.same x x' ∧ c.holds x' (r.final.files k) ∧ c.blocks x' = [b] ∧
      (c.blocks x ++ (r.final.files k).live).Perm (b :: (w.files k).live)

variable {c} {k : Nat} {x : S} {w w' : World} {e : IoError} {cs : List World} {r : Range} {run : Run IoError World Unit}

/-- An error that has changed no file. -/
theorem exact_of_error (h : c.holds x (w.files k)) (hrun : run = ⟨.error e, w', cs⟩) (hfiles : w'.files = w.files) :
    c.Exact k x w run := by
  rw [hrun, Exact, hfiles]
  exact ⟨h, .refl _⟩

/-- An error that leaves one block more. -/
theorem not_exact_of_leak (hrun : run = ⟨.error e, w', cs⟩) (hlive : (w'.files k).live = r :: (w.files k).live) :
    ¬c.Exact k x w run := by
  rw [hrun]
  rintro ⟨-, hperm⟩
  have hlen := hperm.length_eq
  rw [hlive, List.length_cons] at hlen
  omega

end Collection

theorem reserve_cases (a : Allocator) (size : Nat) (w : World) :
    (∃ e w' cs, alloc a size w.tick = ⟨.error e, w', cs⟩ ∧ w'.files = w.files) ∨
      ∃ p w' cs, ∃ h : (w.files a.stack).Admits ⟨p, size⟩, size < 2 ^ 64 ∧
        alloc a size w.tick = ⟨.ok ⟨p, size⟩, w', cs⟩ ∧ w'.files a.stack = (w.files a.stack).allocAt ⟨p, size⟩ h := by
  rcases alloc_outcome a size w.tick with ⟨e, w', hrun, -, hfiles⟩ | ⟨p, h, hrun⟩
  · exact .inl ⟨e, w', _, hrun, hfiles⟩
  · have hstop := h.2.1
    simp only [Range.stop] at hstop
    exact .inr ⟨p, _, _, h, by omega, hrun, World.files_grant_same⟩

/-! ### Heaps -/

namespace BStackBinaryHeap

variable {ksize : Nat} {a : Allocator} {handle : Nat} {t : Info} {s : Nat → Entry ksize} {w w' : World} {r : Range}

def blocksOf (ksize : Nat) (t : Info) : List Range := if 0 < t.cap then [⟨t.data, t.cap * stride ksize⟩] else []

/-- A heap by its descriptor and its slots. -/
def collection (ksize handle : Nat) : Collection (Info × (Nat → Entry ksize)) where
  holds x := Holds handle x.1 x.2
  blocks x := blocksOf ksize x.1
  same x x' := x'.1.len = x.1.len ∧ ∀ i < x.1.len, x'.2 i = x.2 i

/-- The I/O steps behind the allocation, up to the swap of the descriptor. -/
def growSteps (t : Info) : Nat := if 0 < t.len then 3 else 1

theorem readMeta_if (h : Holds handle t s (w.files a.stack)) :
    readMeta a handle w =
    if w.Faulty then ⟨.error ioFault, w.tick, []⟩ else ⟨.ok (t.data, t.cap, t.len), w.tick, []⟩ := by
  have hin := h.1.handle_inside
  have hoff : DATA_OFF = 16 := rfl
  have hget := getInto_if (show handle + DATA_OFF + 3 * 8 ≤ (w.files a.stack).len by omega)
  rw [readMeta, readFields]
  split
  · rename_i hf
    rw [if_pos hf] at hget
    rw [Prog.bind_of_error (Prog.bind_of_error hget)]
  · rename_i hf
    rw [if_neg hf] at hget
    have hmeta := (readMeta_spec (C := fun _ => True) w (Under.refl h)).1
    rw [readMeta, readFields, Prog.bind_of_ok (Prog.bind_of_ok hget)] at hmeta
    rw [Prog.bind_of_ok (Prog.bind_of_ok hget), ← (hmeta _ rfl).1]
    rfl

theorem copySlots_run (h : Spare handle t s r (w.files a.stack)) (hpos : 0 < t.len) :
    (w.Works 2 ∧ ∃ cs, copySlots a ksize t.data t.len r.start w = ⟨.ok (), (w.skip 2).store a.stack r.start
        ((w.files a.stack).bytes.read t.data (t.len * stride ksize)), cs⟩) ∨
      (¬w.Works 2 ∧ ∃ e w' cs, copySlots a ksize t.data t.len r.start w = ⟨.error e, w', cs⟩ ∧ w'.files = w.files) := by
  have hle := Nat.mul_le_mul_right (stride ksize) h.heap.1.len_le
  have hlt := h.heap.1.cap_lt
  have hcheck : checkedMul t.len (stride ksize) lengthOverflow = .ok (t.len * stride ksize) := if_pos (by omega)
  have hdata := (h.heap.1.array_inside (Nat.lt_of_lt_of_le hpos h.heap.1.len_le)).2
  have hnew := Nat.mul_le_mul_right (stride ksize) (Nat.le_trans h.heap.1.len_le (Nat.le_of_lt h.heap.1.cap_lt_newcap))
  have hin := (w.files a.stack).inside r h.live
  have hlen := h.len
  simp only [Range.stop] at hin
  have hget := getInto_if (show t.data + t.len * stride ksize ≤ (w.files a.stack).len by omega)
  have hroom : r.start + ((w.files a.stack).bytes.read t.data (t.len * stride ksize)).length ≤
      (w.tick.files a.stack).len := by
    rw [Mem.length_read, World.files_tick]
    omega
  have hset := set_if hroom
  rw [copySlots, if_pos hpos, hcheck, Prog.lift_ok, pure_bind, World.works_succ, World.works_one]
  by_cases hf : w.Faulty
  · rw [if_pos hf] at hget
    exact .inr ⟨fun hworks => hworks.1 hf, _, _, _, Prog.bind_of_error hget, rfl⟩
  · rw [if_neg hf] at hget
    rw [Prog.bind_of_ok hget, Run.after_nil, hset]
    by_cases hf' : w.tick.Faulty
    · rw [if_pos hf']
      exact .inr ⟨fun hworks => hworks.2 hf', _, _, _, rfl, rfl⟩
    · have hskip : w.tick.tick = w.skip 2 := by
        rw [World.tick_eq_skip w, World.skip_tick]
      rw [if_neg hf', hskip]
      exact .inl ⟨⟨hf, hf'⟩, _, rfl⟩

/-- What `copyInto` does once the elements are copied. -/
def swapDescriptor (a : Allocator) (handle ksize : Nat) (t : Info) (r : Range) : Io Unit := do
  set a.stack (handle + DATA_OFF) (leBytes 8 r.start ++ leBytes 8 (newcapOf t.cap))
  if t.data ≠ 0 then do
    let _ ← Prog.attempt (deallocRange a ⟨t.data, min (t.cap * stride ksize) (2 ^ 64 - 1)⟩)
    pure ()
  else pure ()

theorem swapDescriptor_run (h : Copied handle t s r (w.files a.stack)) (hsize : newcapOf t.cap * stride ksize < 2 ^ 64)
    (hdata : t.data ≠ handle) (hfree : 0 < t.cap → ¬w.tick.Faulty) :
    (¬w.Faulty ∧ ∃ w' cs, swapDescriptor a handle ksize t r w = ⟨.ok (), w', cs⟩ ∧
        Moved handle t s r (w'.files a.stack) ∧
        (blocksOf ksize t ++ (w'.files a.stack).live).Perm (w.files a.stack).live) ∨
      (w.Faulty ∧ ∃ w' cs, swapDescriptor a handle ksize t r w = ⟨.error ioFault, w', cs⟩ ∧ w'.files = w.files) := by
  have hheap := h.1.heap.1
  have hroom : handle + DATA_OFF + (leBytes 8 r.start ++ leBytes 8 (newcapOf t.cap)).length ≤
    (w.files a.stack).len := by
    have hin := hheap.handle_inside
    have hoff : DATA_OFF = 16 := rfl
    simp only [List.length_append, length_leBytes]
    omega
  have hset := set_if hroom
  rw [swapDescriptor]
  by_cases hf : w.Faulty
  · rw [if_pos hf] at hset
    exact .inr ⟨hf, _, _, Prog.bind_of_error hset, rfl⟩
  · rw [if_neg hf] at hset
    rw [Prog.bind_of_ok hset]
    have hmoved := h.swap hsize
    refine .inl ⟨hf, ?_⟩
    by_cases hcap : 0 < t.cap
    · have hzero : t.data ≠ 0 := fun hzero => by
        have hcap' := hheap.data_zero.1 hzero
        omega
      have hold : ⟨t.data, t.cap * stride ksize⟩ ∈ (w.files a.stack).live := (hheap.array.resolve_left (by omega)).2
      have hmin : min (t.cap * stride ksize) (2 ^ 64 - 1) = t.cap * stride ksize := by
        have hlt := hheap.cap_lt
        omega
      have hdealloc := deallocRange_if (a := a) (r := ⟨t.data, t.cap * stride ksize⟩)
        (w := w.tick.store a.stack (handle + DATA_OFF) (leBytes 8 r.start ++ leBytes 8 (newcapOf t.cap)))
        (by rw [World.live_store]; exact hold)
      rw [if_neg (show ¬(w.tick.store _ _ _).Faulty from hfree hcap)] at hdealloc
      rw [if_pos hzero, hmin, Prog.bind_of_ok (Prog.attempt_apply ..), hdealloc, Prog.pure_apply,
        Run.after_mk, Run.after_mk]
      refine ⟨_, _, rfl, ?_, ?_⟩
      · rw [World.files_release_same, World.files_tick, World.files_store_same]
        exact hmoved.free hdata
      · rw [World.files_release_same, File.live_free, blocksOf, if_pos hcap, World.files_tick, World.live_store]
        exact (List.perm_cons_erase hold).symm
    · have hzero : t.data = 0 := hheap.data_zero.2 (by omega)
      rw [if_neg (not_not.2 hzero), Prog.pure_apply, Run.after_mk]
      refine ⟨_, _, rfl, ?_, ?_⟩
      · rw [World.files_store_same]
        exact hmoved
      · rw [blocksOf, if_neg hcap, World.live_store]
        rfl

theorem copyInto_run (h : Spare handle t s r (w.files a.stack)) (hsize : newcapOf t.cap * stride ksize < 2 ^ 64)
    (hdata : t.data ≠ handle) (hfree : 0 < t.cap → ¬(w.skip (growSteps t)).Faulty) :
    (w.Works (growSteps t) ∧ ∃ w' cs, copyInto a handle ksize t.data t.cap t.len r.start w = ⟨.ok (), w', cs⟩ ∧
        Moved handle t s r (w'.files a.stack) ∧
        (blocksOf ksize t ++ (w'.files a.stack).live).Perm (w.files a.stack).live) ∨
      (¬w.Works (growSteps t) ∧ ∃ e w' cs, copyInto a handle ksize t.data t.cap t.len r.start w = ⟨.error e, w', cs⟩ ∧
        (w'.files a.stack).live = (w.files a.stack).live) := by
  change (_ ∧ ∃ w' cs,
    (copySlots a ksize t.data t.len r.start >>= fun _ => swapDescriptor a handle ksize t r) w = _ ∧ _)
    ∨ (_ ∧ ∃ e w' cs, (copySlots a ksize t.data t.len r.start >>= fun _ => swapDescriptor a handle ksize t r) w = _ ∧ _)
  by_cases hpos : 0 < t.len
  · rw [growSteps, if_pos hpos] at hfree ⊢
    rw [show 3 = 2 + 1 by rfl, World.works_add, World.works_one]
    rcases copySlots_run h hpos with ⟨hworks, cs, hcopy⟩ | ⟨hworks, e, w', cs, hcopy, hfiles⟩
    · rw [Prog.bind_of_ok hcopy]
      have hcopied : Copied handle t s r (((w.skip 2).store a.stack r.start
          ((w.files a.stack).bytes.read t.data (t.len * stride ksize))).files a.stack) := by
        rw [World.files_store_same]
        exact h.copy
      rcases swapDescriptor_run hcopied hsize hdata (by rwa [← World.skip_tick] at hfree) with
        ⟨hf, w', cs', hrun, hmoved, hperm⟩ | ⟨hf, w', cs', hrun, hfiles⟩
      · rw [hrun, Run.after_mk]
        refine .inl ⟨⟨hworks, hf⟩, w', _, rfl, hmoved, ?_⟩
        rwa [World.live_store] at hperm
      · rw [hrun, Run.after_mk]
        refine .inr ⟨fun hall => hall.2 hf, _, w', _, rfl, ?_⟩
        rw [hfiles, World.live_store]
        rfl
    · exact .inr ⟨fun hall => hworks hall.1, e, w', cs, Prog.bind_of_error hcopy, by rw [hfiles]⟩
  · rw [growSteps, if_neg hpos] at hfree ⊢
    rw [World.works_one]
    have hcopy : copySlots a ksize t.data t.len r.start w = ⟨.ok (), w, []⟩ := by
      rw [copySlots, if_neg hpos]
      rfl
    rw [Prog.bind_of_ok hcopy, Run.after_nil]
    have hcopied : Copied handle t s r (w.files a.stack) := ⟨h, fun i hi => absurd (Nat.zero_lt_of_lt hi) hpos⟩
    rcases swapDescriptor_run hcopied hsize hdata (by rwa [World.tick_eq_skip]) with
      ⟨hf, w', cs', hrun, hmoved, hperm⟩ | ⟨hf, w', cs', hrun, hfiles⟩
    · exact .inl ⟨hf, w', cs', hrun, hmoved, hperm⟩
    · exact .inr ⟨fun hno => hno hf, _, w', cs', hrun, by rw [hfiles]⟩

def reserve (a : Allocator) (ksize : Nat) (t : Info) (w : World) : Run IoError World Range :=
  alloc a (newcapOf t.cap * stride ksize) w.tick

/-- A growth is exact exactly if no step behind its allocation fails. -/
theorem grow_exact_iff (h : Holds handle t s (w.files a.stack))
    (hfree : 0 < t.cap → ¬((reserve a ksize t w).final.skip (growSteps t)).Faulty) :
    (collection ksize handle).Exact a.stack (t, s) w (grow a handle ksize w) ↔
      (¬w.Faulty → ∀ r, (reserve a ksize t w).out = .ok r → (reserve a ksize t w).final.Works (growSteps t)) := by
  have hmeta := readMeta_if h
  have hcap := h.1.cap_lt_newcap
  rw [grow]
  by_cases hf : w.Faulty
  · rw [if_pos hf] at hmeta
    exact iff_of_true (Collection.exact_of_error h (Prog.bind_of_error hmeta) rfl) fun hno => absurd hf hno
  · rw [if_neg hf] at hmeta
    rw [Prog.bind_of_ok hmeta, Run.after_nil]
    simp only [if_neg (Nat.not_le.2 hcap)]
    rw [reserve] at hfree ⊢
    rcases reserve_cases a (newcapOf t.cap * stride ksize) w with
      ⟨e, w', cs, hrun, hfiles⟩ | ⟨p, w₂, cs, hadmits, hfit, hrun, hgrant⟩
    · refine iff_of_true ?_ fun _ r hr => ?_
      · by_cases hfit : newcapOf t.cap * stride ksize < 2 ^ 64
        · rw [checkedMul, if_pos hfit, Prog.lift_ok, pure_bind]
          exact Collection.exact_of_error h (Prog.bind_of_error hrun) hfiles
        · rw [checkedMul, if_neg hfit]
          exact Collection.exact_of_error h rfl rfl
      · rw [hrun] at hr
        cases hr
    · rw [hrun] at hfree ⊢
      rw [checkedMul, if_pos hfit, Prog.lift_ok, pure_bind, Prog.bind_of_ok hrun]
      have hspare : Spare handle t s ⟨p, newcapOf t.cap * stride ksize⟩ (w₂.files a.stack) :=
        hgrant ▸ .of_alloc h hadmits rfl
      have hlive : (w₂.files a.stack).live = ⟨p, newcapOf t.cap * stride ksize⟩ :: (w.files a.stack).live := by
        rw [hgrant, File.live_allocAt]
      rcases copyInto_run hspare hfit h.1.apart hfree with
        ⟨hworks, w', cs, hcopy, ⟨-, s', hheld, hslots⟩, hperm⟩ | ⟨hworks, e, w', cs, hcopy, hlive'⟩
      · refine iff_of_true ?_ fun _ _ _ => hworks
        rw [hcopy, Run.after_mk]
        refine ⟨(⟨p, newcapOf t.cap, t.len⟩, s'), ⟨p, newcapOf t.cap * stride ksize⟩, ⟨rfl, hslots⟩, hheld,
          if_pos (newcap_pos t.cap), ?_⟩
        rw [← hlive]
        exact hperm
      · refine iff_of_false ?_ fun hall => hworks (hall hf _ rfl)
        rw [hcopy, Run.after_mk]
        exact Collection.not_exact_of_leak rfl (hlive'.trans hlive)

end BStackBinaryHeap

/-! ### Deques -/

namespace BStackDeque

variable {a : Allocator} {handle newcap : Nat} {x : Deque} {w : World} {r : Range} {L : List Range}

def blocksOf (t : Ring) : List Range := if 0 < t.cap then [⟨t.data, t.cap * 8⟩] else []

def collection (handle : Nat) : Collection Deque where
  holds := Holds handle
  blocks x := blocksOf x.ring
  same x x' := x'.items = x.items

def growSteps (newcap : Nat) (t : Ring) : Nat := 4 + (if Abort newcap t then 0 else t.len) + 1

theorem Holds.growRound (newcap : Nat) (h : Holds handle x (w.files a.stack)) : ∃ offs : List Nat,
    growReads newcap ((ringReads handle).map (w.files a.stack).bytes.word) = .ok offs ∧
      (∀ off ∈ offs, off + 8 ≤ (w.files a.stack).len) ∧
      offs.length = if Abort newcap x.ring then 0 else x.ring.len := by
  have hring := h.ring
  by_cases habort : Abort newcap x.ring
  · rw [if_pos habort]
    exact ⟨[], by simp only [growReads, hring.reads, if_pos habort], by simp, rfl⟩
  · rw [if_neg habort]
    refine ⟨_, hring.growReads_ok habort, fun off hoff => ?_, by simp⟩
    obtain ⟨i, hi, rfl⟩ := List.mem_map.1 hoff
    have hlt := List.mem_range.1 hi
    have hle := hring.len_le
    have hslot := hring.slot_inside (n := 0) (i := (x.ring.head + i) % x.ring.cap) (Nat.mod_lt _ (by omega))
    simpa only [w8, length_leBytes] using hslot

theorem afterGrow_run {b : Range} (h : Holds handle x (w.files a.stack)) (hb : b ∈ (w.files a.stack).live)
    (hne : ∀ c, c = ⟨handle, DEQUE_SIZE⟩ ∨ 0 < x.ring.cap ∧ c = ⟨x.ring.data, x.ring.cap * 8⟩ → c ≠ b)
    (hfree : ¬w.Faulty) (o : Option (Nat × Nat)) (n m : Nat)
    (hcode : (afterGrow a n m o).run = Prog.attempt (deallocRange a b) >>= fun _ => pure ()) :
    ∃ w' cs, (afterGrow a n m o).run w = ⟨.ok (), w', cs⟩ ∧ Holds handle x (w'.files a.stack) ∧
      (b :: (w'.files a.stack).live).Perm (w.files a.stack).live := by
  have hdealloc := deallocRange_if hb
  rw [if_neg hfree] at hdealloc
  rw [hcode, Prog.bind_of_ok (Prog.attempt_apply ..), hdealloc, Prog.pure_apply, Run.after_mk]
  refine ⟨_, _, rfl, ?_, ?_⟩
  · rw [World.files_release_same]
    refine h.frame fun c hc => ⟨(List.mem_erase_of_ne (hne c hc)).2 ?_, fun _ _ _ => rfl⟩
    rcases hc with rfl | ⟨hpos, rfl⟩
    · exact h.ring.block
    · exact (h.ring.array.resolve_left (by omega)).2
  · rw [World.files_release_same, File.live_free]
    exact (List.perm_cons_erase hb).symm

theorem Beside.ne_blocks (h : Beside handle x r (w.files a.stack)) {c : Range}
    (hc : c = ⟨handle, DEQUE_SIZE⟩ ∨ 0 < x.ring.cap ∧ c = ⟨x.ring.data, x.ring.cap * 8⟩) : c ≠ r := by
  rintro rfl
  rcases hc with hc | ⟨hpos, hc⟩
  · have happ := h.handle_apart
    have hsize : DEQUE_SIZE = 48 := rfl
    rw [hc] at happ
    simp only [Range.stop] at happ
    omega
  · have happ := h.ring_apart hpos
    rw [hc] at happ
    simp only [Range.stop] at happ
    omega

theorem growInto_run (h : Beside handle x r (w.files a.stack)) (hr : r.len = newcap * 8) (hcap : x.ring.cap < newcap)
    (hlive : (w.files a.stack).live = r :: L)
    (hfree : 0 < x.ring.cap → ¬(w.skip (growSteps newcap x.ring)).Faulty) :
    (w.Works (growSteps newcap x.ring) ∧ ∃ w' cs x' b, (growInto a handle r.start newcap r.len).run w =
        ⟨.ok (), w', cs⟩ ∧ x'.items = x.items ∧ Holds handle x' (w'.files a.stack) ∧ blocksOf x'.ring = [b] ∧
        (blocksOf x.ring ++ (w'.files a.stack).live).Perm (b :: L)) ∨
      (¬w.Works (growSteps newcap x.ring) ∧ ∃ e w' cs, (growInto a handle r.start newcap r.len).run w =
        ⟨.error e, w', cs⟩ ∧ (w'.files a.stack).live = (w.files a.stack).live) := by
  obtain ⟨offs, hround, hoffs, hlen⟩ := h.holds.growRound newcap
  have hreads := h.holds.ring.reads_inside
  have hsteps : (ringReads handle).length + offs.length + 1 = growSteps newcap x.ring := by
    rw [hlen, growSteps]
    rfl
  have hcommit : ∃ o x', Commits handle (w.files a.stack)
      (updateGen (ringReads handle) (growReads newcap) (growPlan handle r.start newcap)) o x' ∧
      ((Abort newcap x.ring ∧ o = none ∧ x' = x) ∨
        (¬Abort newcap x.ring ∧ o = some (x.ring.data, x.ring.cap) ∧ x' = x.moved r.start newcap)) := by
    by_cases habort : Abort newcap x.ring
    · exact ⟨_, _, abort_commits h.holds habort, .inl ⟨habort, rfl, rfl⟩⟩
    · exact ⟨_, _, grow_commits h hr habort, .inr ⟨habort, rfl, rfl⟩⟩
  obtain ⟨o, x', ⟨ws, heval, hin, hheld⟩, hcases⟩ := hcommit
  rw [growInto, Script.run_bind]
  by_cases hworks : w.Works (growSteps newcap x.ring)
  · rw [← hsteps] at hworks hfree
    have hrun := atomicUpdate_works hreads hround hoffs heval hin hworks
    rw [hsteps] at hworks
    refine .inl ⟨hworks, ?_⟩
    rw [Prog.bind_of_ok hrun]
    generalize hw₁ : World.storeAll a.stack ws (w.skip ((ringReads handle).length + offs.length + 1)) = w₁
    have hheld₁ : Holds handle x' (w₁.files a.stack) := by
      rw [← hw₁, World.files_storeAll]
      exact hheld
    have hlive₁ : (w₁.files a.stack).live = r :: L := by
      rw [← hw₁, World.live_storeAll, ← hlive]
      rfl
    have hfree₁ : 0 < x.ring.cap → ¬w₁.Faulty := by
      rw [← hw₁, World.Faulty, World.faults_storeAll]
      exact hfree
    rcases hcases with ⟨habort, rfl, rfl⟩ | ⟨habort, rfl, rfl⟩
    · have hpos : 0 < x'.ring.cap := by
        rcases habort with ⟨hne, -⟩ | hle
        · omega
        · omega
      obtain ⟨w', cs, hfreed, hheld', hperm⟩ := afterGrow_run hheld₁ (b := r) (by rw [hlive₁]; exact List.mem_cons_self)
        (fun c hc => h.ne_blocks hc) (hfree₁ hpos) none r.start r.len (by
          simp only [afterGrow, Script.run_bind, Script.run_attempt, Script.run_atom, Script.run_pure])
      rw [hfreed, Run.after_mk]
      rw [hlive₁] at hperm
      refine ⟨w', _, x', _, rfl, rfl, hheld', if_pos hpos, ?_⟩
      rw [blocksOf, if_pos hpos]
      exact hperm.cons_inv.cons _
    · have hblock : blocksOf (x.moved r.start newcap).ring = [r] := by
        change (if 0 < newcap then [(⟨r.start, newcap * 8⟩ : Range)] else []) = [r]
        rw [if_pos (by omega), ← hr]
      by_cases hpos : 0 < x.ring.cap
      · have hold : (⟨x.ring.data, x.ring.cap * 8⟩ : Range) ∈ (w.files a.stack).live :=
          (h.holds.ring.array.resolve_left (by omega)).2
        have hmin : min (x.ring.cap * 8) (2 ^ 64 - 1) = x.ring.cap * 8 := by
          have hlt := h.holds.ring.cap_lt
          omega
        obtain ⟨w', cs, hfreed, hheld', hperm⟩ := afterGrow_run hheld₁ (b := ⟨x.ring.data, x.ring.cap * 8⟩)
          (by rw [hlive₁, ← hlive]; exact hold) (fun c hc => by
            rcases hc with rfl | ⟨-, rfl⟩
            · exact fun heq => h.holds.ring.apart (congrArg Range.start heq).symm
            · change (⟨r.start, newcap * 8⟩ : Range) ≠ _
              rw [← hr]
              exact (h.ne_blocks (.inr ⟨hpos, rfl⟩)).symm) (hfree₁ hpos)
          (some (x.ring.data, x.ring.cap)) r.start r.len (by
            simp only [afterGrow, if_pos hpos, hmin, Script.run_bind, Script.run_attempt, Script.run_atom,
              Script.run_pure])
        rw [hfreed, Run.after_mk]
        refine ⟨w', _, x.moved r.start newcap, r, rfl, rfl, hheld', hblock, ?_⟩
        rw [blocksOf, if_pos hpos, ← hlive₁]
        exact hperm
      · have hdone : (afterGrow a r.start r.len (some (x.ring.data, x.ring.cap))).run w₁ = ⟨.ok (), w₁, []⟩ := by
          rw [afterGrow, if_neg hpos]
          rfl
        rw [hdone, Run.after_mk]
        refine ⟨w₁, _, x.moved r.start newcap, r, rfl, rfl, hheld₁, hblock, ?_⟩
        rw [blocksOf, if_neg hpos, hlive₁]
        rfl
  · rw [← hsteps] at hworks
    obtain ⟨n, hrun⟩ := atomicUpdate_struck hreads hround hoffs heval hworks
    rw [hsteps] at hworks
    exact .inr ⟨hworks, _, _, _, Prog.bind_of_error hrun, rfl⟩

theorem Holds.beside_alloc (h : Holds handle x (w.files a.stack)) (hr : (w.files a.stack).Admits r) :
    Beside handle x r ((w.files a.stack).allocAt r hr) := by
  refine ⟨h.frame fun b hb => ?_, List.mem_cons_self, ?_, fun hpos => ?_⟩
  · have hlive : b ∈ (w.files a.stack).live := by
      rcases hb with rfl | ⟨hcap, rfl⟩
      · exact h.ring.block
      · exact (h.ring.array.resolve_left (by omega)).2
    refine ⟨List.mem_cons_of_mem r hlive, fun i hi hi' => ?_⟩
    rw [File.bytes_allocAt]
    cases (hr.2.2 b hlive).2 with
    | inl hle => exact Mem.write_of_lt (Nat.lt_of_lt_of_le hi' hle)
    | inr hge => exact Mem.write_of_ge (by rw [List.length_replicate]; exact Nat.le_trans hge hi)
  · exact (hr.2.2 _ h.ring.block).2.symm
  · exact (hr.2.2 _ (h.ring.array.resolve_left (by omega)).2).2.symm

def reserve (a : Allocator) (t : Ring) (w : World) : Run IoError World Range := alloc a (newcapOf t.cap * 8) w.tick

theorem grow_exact_iff (h : Holds handle x (w.files a.stack))
    (hfree : 0 < x.ring.cap →
      ¬((reserve a x.ring w).final.skip (growSteps (newcapOf x.ring.cap) x.ring)).Faulty) :
    (collection handle).Exact a.stack x w ((grow a handle).run w) ↔
      (¬w.Faulty → ∀ r, (reserve a x.ring w).out = .ok r →
        (reserve a x.ring w).final.Works (growSteps (newcapOf x.ring.cap) x.ring)) := by
  have hcap : x.ring.cap < newcapOf x.ring.cap := by
    have hlt := h.ring.cap_lt
    rw [newcapOf, MIN_CAP]
    split <;> omega
  have hin := h.ring.handle_inside
  have hread := readU64_if (show handle + CAP_OFF + 8 ≤ (w.files a.stack).len by
    simp only [CAP_OFF, HEADER_SIZE]
    omega)
  rw [h.ring.cap] at hread
  simp only [grow, Script.run_bind, Script.run_atom, Script.run_lift]
  by_cases hf : w.Faulty
  · rw [if_pos hf] at hread
    exact iff_of_true (Collection.exact_of_error h (Prog.bind_of_error hread) rfl) fun hno => absurd hf hno
  · rw [if_neg hf] at hread
    rw [Prog.bind_of_ok hread, Run.after_nil]
    rw [reserve] at hfree ⊢
    rcases reserve_cases a (newcapOf x.ring.cap * 8) w with
      ⟨e, w', cs, hrun, hfiles⟩ | ⟨p, w₂, cs, hadmits, hfit, hrun, hgrant⟩
    · refine iff_of_true ?_ fun _ r hr => ?_
      · by_cases hfit : newcapOf x.ring.cap * 8 < 2 ^ 64
        · rw [checkedMul, if_pos hfit, Prog.lift_ok, pure_bind]
          exact Collection.exact_of_error h (Prog.bind_of_error hrun) hfiles
        · rw [checkedMul, if_neg hfit]
          exact Collection.exact_of_error h rfl rfl
      · rw [hrun] at hr
        cases hr
    · rw [hrun] at hfree ⊢
      rw [checkedMul, if_pos hfit, Prog.lift_ok, pure_bind, Prog.bind_of_ok hrun]
      have hbeside : Beside handle x ⟨p, newcapOf x.ring.cap * 8⟩ (w₂.files a.stack) := hgrant ▸ h.beside_alloc hadmits
      have hlive : (w₂.files a.stack).live = ⟨p, newcapOf x.ring.cap * 8⟩ :: (w.files a.stack).live := by
        rw [hgrant, File.live_allocAt]
      rcases growInto_run hbeside rfl hcap hlive hfree with
        ⟨hworks, w', cs', x', b, hgrow, hitems, hheld, hblock, hperm⟩ | ⟨hworks, e, w', cs', hgrow, hlive'⟩
      · refine iff_of_true ?_ fun _ _ _ => hworks
        rw [hgrow, Run.after_mk]
        exact ⟨x', b, hitems, hheld, hblock, hperm⟩
      · refine iff_of_false ?_ fun hall => hworks (hall hf _ rfl)
        rw [hgrow, Run.after_mk]
        exact Collection.not_exact_of_leak rfl (hlive'.trans hlive)

end BStackDeque

/-! ### Bucket tables -/

namespace BucketTable

open Probing

variable {ksize : Nat} {V : Type} {P : Payload V} {a : Allocator} {handle size : Nat} {t : Table ksize V} {w : World}
  {r : Range} {L : List Range}

def blocksOf (P : Payload V) (t : Table ksize V) : List Range := if 0 < t.info.cap then [t.block P] else []

def collection (P : Payload V) (ksize handle size : Nat) : Collection (Table ksize V) where
  holds t f := Tabled P f handle size t
  blocks := blocksOf P
  same t t' := t'.info.len = t.info.len ∧ ∀ m, Maps t.info.cap t.slots m → Maps t'.info.cap t'.slots m

theorem Laid.count_readBuckets {f : File} (h : Laid P f handle size t) {left i : Nat} (hi : i + left ≤ t.info.cap) :
    (readBuckets t.info (width P ksize) (t.info.cap * width P ksize) left i).count f = left := by
  induction left generalizing i with
  | zero => rfl
  | succ left ih =>
      have hlt : i < t.info.cap := by omega
      have hle : (i + 1) * width P ksize ≤ t.info.cap * width P ksize := Nat.mul_le_mul_right _ hlt
      rw [Nat.succ_mul] at hle
      rw [readBuckets, if_neg (by omega), h.checked_at hlt, Gen.count_bind_ok (Gen.eval_lift f _),
        Gen.count_bind_ok (h.bucket_read hlt), Gen.count_bind_ok (readBuckets_eval h (Nat.le_refl _) (by omega)),
        Gen.count_lift, Gen.count_get, ih (by omega), Gen.count_pure]
      omega

/-- The swap reads the metadata and each bucket. -/
theorem Spare.count_swapTable (h : Spare P handle size t r (w.files a.stack)) :
    (swapTable handle (width P ksize) ksize r.start (newcapOf t.info.cap) r.len
      (t.info.cap * width P ksize)).count (w.files a.stack) = t.info.cap + 1 := by
  have hlaid := h.tabled.toLaid
  have hin := hlaid.header_inside
  have hsize := hlaid.size_le
  have hmeta : (readMeta handle).count (w.files a.stack) = 1 := by
    rw [readMeta, Gen.count_bind_ok (Gen.eval_get (by simp only [HEADER_SIZE]; omega)), Gen.count_get, Gen.count_pure]
  obtain ⟨ws, t', heval, -⟩ := h.swap
  rw [swapTable, Gen.eval_bind_ok hlaid.meta_read, if_neg (Nat.not_le.2 hlaid.newcapOf_spec.1),
    Gen.eval_bind_ok (readBuckets_eval hlaid (Nat.le_refl _) (by omega))] at heval
  rw [swapTable, Gen.count_bind_ok hlaid.meta_read, if_neg (Nat.not_le.2 hlaid.newcapOf_spec.1), hmeta,
    Gen.count_bind_ok (readBuckets_eval hlaid (Nat.le_refl _) (by omega)), hlaid.count_readBuckets (by omega)]
  cases himage : rebuild (width P ksize) ksize (newcapOf t.info.cap)
      ((List.range' 0 t.info.cap).map fun j => (w.files a.stack).bytes.read (t.at P j) (width P ksize)) Mem.zero with
  | error e =>
      rw [himage] at heval
      cases heval
  | ok image =>
      rw [Gen.count_bind_ok (Gen.eval_lift _ _), Gen.count_lift, Gen.count_pure]
      omega

def swapRun (P : Payload V) (a : Allocator) (handle : Nat) (t : Table ksize V) (r : Range) (w : World) :
    Run IoError World (Except IoError (Option (Nat × Nat))) :=
  inplaceGen a.stack (swapTable handle (width P ksize) ksize r.start (newcapOf t.info.cap) r.len
    (t.info.cap * width P ksize)) w

theorem growInto_run (h : Spare P handle size t r (w.files a.stack)) (hlive : (w.files a.stack).live = r :: L)
    (hfree : (0 < t.info.cap ∨ ∃ e, (swapRun P a handle t r w).out = .ok (.error e)) →
      ¬(swapRun P a handle t r w).final.Faulty) :
    ((w.Works (t.info.cap + 1) → ¬(w.skip (t.info.cap + 1)).Faulty) ∧
        ((∃ e w' cs, (growInto a handle (width P ksize) ksize t.info.cap r.len r).run w = ⟨.error e, w', cs⟩ ∧
            Tabled P (w'.files a.stack) handle size t ∧ (w'.files a.stack).live = L) ∨
          ∃ w' cs t', (growInto a handle (width P ksize) ksize t.info.cap r.len r).run w = ⟨.ok (), w', cs⟩ ∧
            Grew t t' ∧ Tabled P (w'.files a.stack) handle size t' ∧ blocksOf P t' = [r] ∧
            (blocksOf P t ++ (w'.files a.stack).live).Perm (r :: L))) ∨
      (¬(w.Works (t.info.cap + 1) → ¬(w.skip (t.info.cap + 1)).Faulty) ∧
        ∃ e w' cs, (growInto a handle (width P ksize) ksize t.info.cap r.len r).run w = ⟨.error e, w', cs⟩ ∧
          (w'.files a.stack).live = (w.files a.stack).live) := by
  have hsmall := h.tabled.toLaid.size_lt
  have hcount := h.count_swapTable
  obtain ⟨ws, t', heval, hin, hblock, hswapped⟩ := h.swap
  have hcode : (growInto a handle (width P ksize) ksize t.info.cap r.len r).run w =
      ((fun w => swapRun P a handle t r w) >>=
        fun o => (afterSwap a (width P ksize) ⟨r.start, r.len⟩ o).run : Io Unit) w := by
    simp only [growInto, Script.run_bind, Script.run_atom, Script.run_lift, checkedMul, if_pos hsmall, Prog.lift_ok,
      pure_bind]
    rfl
  rw [hcode]
  by_cases hreads : w.Works (t.info.cap + 1)
  · by_cases hbatch : (w.skip (t.info.cap + 1)).Faulty
    · have hrun : swapRun P a handle t r w = _ :=
        inplaceGen_batch_struck heval (by rw [hcount]; exact hreads) (by rw [hcount]; exact hbatch)
      refine .inr ⟨fun hall => hall hreads hbatch, ?_⟩
      exact ⟨_, _, _, Prog.bind_of_error (c := fun w => swapRun P a handle t r w) hrun, rfl⟩
    · have hworks : w.Works (t.info.cap + 1 + 1) := World.works_add.2 ⟨hreads, World.works_one.2 hbatch⟩
      have hrun : swapRun P a handle t r w = _ := inplaceGen_works heval hin (by rw [hcount]; exact hworks)
      rw [hcount] at hrun
      refine .inl ⟨fun _ => hbatch, .inr ?_⟩
      rw [hrun] at hfree
      rw [Prog.bind_of_ok (c := fun w => swapRun P a handle t r w) hrun]
      generalize hw₁ : World.storeAll a.stack ws (w.skip (t.info.cap + 1 + 1)) = w₁ at hfree
      have hswapped₁ : Swapped P handle size t t' (w₁.files a.stack) := by
        rw [← hw₁, World.files_storeAll]
        exact hswapped
      have hlive₁ : (w₁.files a.stack).live = r :: L := by
        rw [← hw₁, World.live_storeAll, ← hlive]
        rfl
      have hnew : blocksOf P t' = [r] := by
        have hpos := h.tabled.toLaid.newcapOf_spec.1
        rw [blocksOf, hswapped.grew.cap, if_pos (by omega), hblock]
      by_cases hpos : 0 < t.info.cap
      · have hold : t.block P ∈ (w₁.files a.stack).live := by
          rw [hlive₁, ← hlive]
          exact h.tabled.block hpos
        have hmin : min (t.info.cap * width P ksize) (2 ^ 64 - 1) = t.info.cap * width P ksize := by omega
        have hdealloc := deallocRange_if hold
        rw [if_neg (hfree (.inl hpos))] at hdealloc
        simp only [afterSwap, if_pos hpos, hmin, Script.run_bind, Script.run_attempt, Script.run_atom, Script.run_pure]
        change ∃ w' cs t', ((Prog.attempt (deallocRange a (t.block P)) >>= fun _ => pure ()) w₁).after [w] = _ ∧ _
        rw [Prog.bind_of_ok (Prog.attempt_apply ..), hdealloc, Prog.pure_apply, Run.after_mk, Run.after_mk]
        refine ⟨_, _, t', rfl, hswapped.grew, ?_, hnew, ?_⟩
        · rw [World.files_release_same]
          exact hswapped₁.tabled.free hswapped.header fun _ => hswapped.block hpos
        · rw [World.files_release_same, File.live_free, blocksOf, if_pos hpos, ← hlive₁]
          exact (List.perm_cons_erase hold).symm
      · have hdone : (afterSwap a (width P ksize) ⟨r.start, r.len⟩ (.ok (some (t.info.table, t.info.cap)))).run w₁ =
            ⟨.ok (), w₁, []⟩ := by
          rw [afterSwap, if_neg hpos]
          rfl
        rw [hdone, Run.after_mk]
        refine ⟨w₁, _, t', rfl, hswapped.grew, hswapped₁.tabled, hnew, ?_⟩
        rw [blocksOf, if_neg hpos, hlive₁]
        rfl
  · obtain ⟨n, hrun⟩ := inplaceGen_reads_struck (g := swapTable handle (width P ksize) ksize r.start
      (newcapOf t.info.cap) r.len (t.info.cap * width P ksize)) (k := a.stack) (w := w) (by rw [hcount]; exact hreads)
    replace hrun : swapRun P a handle t r w = _ := hrun
    refine .inl ⟨fun hall => absurd hall hreads, .inl ?_⟩
    rw [hrun] at hfree
    have hdealloc := deallocRange_if (a := a) (r := r) (w := w.skip n) h.live
    rw [if_neg (hfree (.inr ⟨_, rfl⟩))] at hdealloc
    rw [Prog.bind_of_ok (c := fun w => swapRun P a handle t r w) hrun]
    simp only [afterSwap, Script.run_bind, Script.run_attempt, Script.run_atom, Script.run_fail]
    rw [Prog.bind_of_ok (Prog.attempt_apply ..), hdealloc, Prog.fail_apply, Run.after_mk, Run.after_mk]
    refine ⟨_, _, _, rfl, ?_, ?_⟩
    · rw [World.files_release_same]
      exact h.free
    · rw [World.files_release_same, File.live_free]
      change (w.files a.stack).live.erase r = L
      rw [hlive, List.erase_cons_head]

def reserve (P : Payload V) (a : Allocator) (t : Table ksize V) (w : World) : Run IoError World Range :=
  alloc a (newcapOf t.info.cap * width P ksize) w.tick

/-- A growth is exact exactly if its batch does not fail. -/
theorem growTable_exact_iff (h : Tabled P (w.files a.stack) handle size t)
    (hfree : ∀ r, (reserve P a t w).out = .ok r →
      (0 < t.info.cap ∨ ∃ e, (swapRun P a handle t r (reserve P a t w).final).out = .ok (.error e)) →
        ¬(swapRun P a handle t r (reserve P a t w).final).final.Faulty) :
    (collection P ksize handle size).Exact a.stack t w ((growTable a handle (width P ksize) ksize).run w) ↔
      (¬w.Faulty → ∀ r, (reserve P a t w).out = .ok r → (reserve P a t w).final.Works (t.info.cap + 1) →
        ¬((reserve P a t w).final.skip (t.info.cap + 1)).Faulty) := by
  have hread := readU64_if (h.toLaid.word_in CAP_OFF (by decide))
  rw [h.toLaid.cap_word] at hread
  simp only [growTable, Script.run_bind, Script.run_atom, Script.run_lift]
  by_cases hf : w.Faulty
  · rw [if_pos hf] at hread
    exact iff_of_true (Collection.exact_of_error h (Prog.bind_of_error hread) rfl) fun hno => absurd hf hno
  · rw [if_neg hf] at hread
    rw [Prog.bind_of_ok hread, Run.after_nil]
    rw [reserve] at hfree ⊢
    rcases reserve_cases a (newcapOf t.info.cap * width P ksize) w with
      ⟨e, w', cs, hrun, hfiles⟩ | ⟨p, w₂, cs, hadmits, hfit, hrun, hgrant⟩
    · refine iff_of_true ?_ fun _ r hr => ?_
      · by_cases hfit : newcapOf t.info.cap * width P ksize < 2 ^ 64
        · rw [checkedMul, if_pos hfit, Prog.lift_ok, pure_bind]
          exact Collection.exact_of_error h (Prog.bind_of_error hrun) hfiles
        · rw [checkedMul, if_neg hfit]
          exact Collection.exact_of_error h rfl rfl
      · rw [hrun] at hr
        cases hr
    · rw [hrun] at hfree ⊢
      rw [checkedMul, if_pos hfit, Prog.lift_ok, pure_bind, Prog.bind_of_ok hrun]
      have hspare : Spare P handle size t ⟨p, newcapOf t.info.cap * width P ksize⟩ (w₂.files a.stack) :=
        hgrant ▸ h.spare hadmits rfl
      have hlive : (w₂.files a.stack).live = ⟨p, newcapOf t.info.cap * width P ksize⟩ :: (w.files a.stack).live := by
        rw [hgrant, File.live_allocAt]
      rcases growInto_run hspare hlive (hfree _ rfl) with
        ⟨hworks, ⟨e, w', cs', hgrow, htabled, hlive'⟩ | ⟨w', cs', t', hgrow, hgrew, htabled, hblock, hperm⟩⟩ |
          ⟨hworks, e, w', cs', hgrow, hlive'⟩
      · refine iff_of_true ?_ fun _ r hr => ?_
        · rw [hgrow, Run.after_mk]
          exact ⟨htabled, hlive' ▸ .refl _⟩
        · cases hr
          exact hworks
      · refine iff_of_true ?_ fun _ r hr => ?_
        · rw [hgrow, Run.after_mk]
          exact ⟨t', _, ⟨hgrew.len, hgrew.maps⟩, htabled, hblock, hperm⟩
        · cases hr
          exact hworks
      · refine iff_of_false ?_ fun hall => hworks (hall hf _ rfl)
        rw [hgrow, Run.after_mk]
        exact Collection.not_exact_of_leak rfl (hlive'.trans hlive)

end BucketTable

/-! ### The growths of the collections -/

/-- When the free of the old block works, a growth of a heap or of a deque is exact exactly if no step between its
allocation and the swap of its descriptor fails, and a growth of a bucket table, of a map or of a set, exactly if the
batch of its generator does not fail. -/
theorem growth_exact_iff (a : Allocator) (handle : Nat) (w : World) :
    (∀ (ksize : Nat) (t : BStackBinaryHeap.Info) (s : Nat → BStackBinaryHeap.Entry ksize),
      BStackBinaryHeap.Holds handle t s (w.files a.stack) →
      (0 < t.cap →
        ¬((BStackBinaryHeap.reserve a ksize t w).final.skip (BStackBinaryHeap.growSteps t)).Faulty) →
      ((BStackBinaryHeap.collection ksize handle).Exact a.stack (t, s) w (BStackBinaryHeap.grow a handle ksize w) ↔
        (¬w.Faulty → ∀ r, (BStackBinaryHeap.reserve a ksize t w).out = .ok r →
          (BStackBinaryHeap.reserve a ksize t w).final.Works (BStackBinaryHeap.growSteps t)))) ∧
    (∀ x : BStackDeque.Deque, BStackDeque.Holds handle x (w.files a.stack) →
      (0 < x.ring.cap → ¬((BStackDeque.reserve a x.ring w).final.skip
        (BStackDeque.growSteps (BStackDeque.newcapOf x.ring.cap) x.ring)).Faulty) →
      ((BStackDeque.collection handle).Exact a.stack x w ((BStackDeque.grow a handle).run w) ↔
        (¬w.Faulty → ∀ r, (BStackDeque.reserve a x.ring w).out = .ok r → (BStackDeque.reserve a x.ring w).final.Works
          (BStackDeque.growSteps (BStackDeque.newcapOf x.ring.cap) x.ring)))) ∧
    ∀ (ksize : Nat) (V : Type) (P : Payload V) (size : Nat) (t : BucketTable.Table ksize V),
      BucketTable.Tabled P (w.files a.stack) handle size t →
      (∀ r, (BucketTable.reserve P a t w).out = .ok r →
        (0 < t.info.cap ∨ ∃ e, (BucketTable.swapRun P a handle t r (BucketTable.reserve P a t w).final).out =
          .ok (.error e)) →
        ¬(BucketTable.swapRun P a handle t r (BucketTable.reserve P a t w).final).final.Faulty) →
      ((BucketTable.collection P ksize handle size).Exact a.stack t w
          ((BucketTable.growTable a handle (BucketTable.width P ksize) ksize).run w) ↔
        (¬w.Faulty → ∀ r, (BucketTable.reserve P a t w).out = .ok r →
          (BucketTable.reserve P a t w).final.Works (t.info.cap + 1) →
            ¬((BucketTable.reserve P a t w).final.skip (t.info.cap + 1)).Faulty)) :=
  ⟨fun _ _ _ h hfree => BStackBinaryHeap.grow_exact_iff h hfree, fun _ h hfree => BStackDeque.grow_exact_iff h hfree,
    fun _ _ _ _ _ h hfree => BucketTable.growTable_exact_iff h hfree⟩

def zeroAllocator : Allocator := ⟨0, true, none, 0⟩

/-- A full ring of four slots at 100 that runs around its end. -/
def fullRing : BStackDeque.Deque := ⟨⟨3, 4, 4, 100⟩, [5, 6, 7, 8]⟩

def ringWorld : World :=
  World.storeAll 0 [(16 + BStackDeque.DATA_OFF, leBytes 8 100), (16 + BStackDeque.CAP_OFF, leBytes 8 4),
    (16 + BStackDeque.HEAD_OFF, leBytes 8 3), (16 + BStackDeque.LEN_OFF, leBytes 8 4), (124, leBytes 8 5),
    (100, leBytes 8 6), (108, leBytes 8 7), (116, leBytes 8 8)]
    { World.blank [1000] with
      files := fun _ => ⟨fun _ => 0, 132, [⟨16, 48⟩, ⟨100, 32⟩], by decide, by decide, by decide⟩ }

theorem ringWorld_holds : BStackDeque.Holds 16 fullRing (ringWorld.files 0) := by
  refine ⟨⟨by decide +kernel, by decide +kernel, by decide +kernel, by decide +kernel, by decide +kernel, by decide,
    .inl (by decide), by decide, .inr ⟨by decide, by decide +kernel⟩⟩, by decide +kernel⟩

/-- The full ring is moved to a block of eight slots. -/
theorem growth_exact_wrapped : ((BStackDeque.grow zeroAllocator 16).run ringWorld).out = .ok () ∧
    (BStackDeque.collection 16).Exact 0 fullRing ringWorld ((BStackDeque.grow zeroAllocator 16).run ringWorld) := by
  have hout : ((BStackDeque.grow zeroAllocator 16).run ringWorld).out = .ok () := by decide +kernel
  refine ⟨hout, ((growth_exact_iff zeroAllocator 16 ringWorld).2.1 fullRing ringWorld_holds fun _ => ?_).2
    fun _ _ _ => ?_⟩ <;> decide +kernel

/-- A new collection at 16: its fields are zero. -/
def zeroFile : File where
  bytes := fun _ => 0
  len := 64
  live := [⟨16, 48⟩]
  apart := by decide
  inside := by decide
  addressable := by decide

def zeroWorld (faults : List Bool) : World := { World.blank [1000] with files := fun _ => zeroFile, faults }

/-- The first growth of a deque whose generator fails in its first read: the error leaves the new ring allocated. -/
theorem growth_leaks :
    ((BStackDeque.grow zeroAllocator 16).run (zeroWorld [false, false, true])).out = .error ioFault ∧
      (((BStackDeque.grow zeroAllocator 16).run (zeroWorld [false, false, true])).final.files 0).live =
        [⟨1000, 32⟩, ⟨16, 48⟩] ∧
      ¬(BStackDeque.collection 16).Exact 0 ⟨⟨0, 0, 0, 0⟩, []⟩ (zeroWorld [false, false, true])
        ((BStackDeque.grow zeroAllocator 16).run (zeroWorld [false, false, true])) := by
  have hout : ((BStackDeque.grow zeroAllocator 16).run (zeroWorld [false, false, true])).out = .error ioFault := by
    decide +kernel
  have hlive : (((BStackDeque.grow zeroAllocator 16).run (zeroWorld [false, false, true])).final.files 0).live =
      [⟨1000, 32⟩, ⟨16, 48⟩] := by decide +kernel
  refine ⟨hout, hlive, fun h => ?_⟩
  rw [Collection.Exact, hout] at h
  have hlen := h.2.length_eq
  rw [hlive] at hlen
  cases hlen

end BStackRaii
