import BStackRaii.Proof.Heap.Calls
/-!
# The binary heap refines a multiset

The reference is the multiset of the pairs that the pushes added and the pops took out. In every state the
slots are in heap order and hold the reference, whatever order the priorities have.
-/

namespace BStackRaii

namespace BStackBinaryHeap

/-! ### The reference -/

inductive HeapOp (ksize : Nat)
  | push (e : Entry ksize)
  | pop

namespace HeapOp

variable {ksize : Nat}

/-- The call. A push that succeeds answers nothing. One round is for growing, one for the push itself, and
`more` rounds are never made. -/
def run (cmp : Key ksize → Key ksize → Ordering) (a : Allocator) (handle more : Nat) :
    HeapOp ksize → Io (Option (Entry ksize))
  | push e => do
      BStackBinaryHeap.push a handle cmp e.1 e.2 (more + 2)
      pure none
  | pop => BStackBinaryHeap.pop a handle cmp

/-- The reference once the call has answered `out`. -/
def after (es : Multiset (Entry ksize)) : HeapOp ksize → Except IoError (Option (Entry ksize)) →
    Multiset (Entry ksize)
  | push e, .ok _ => e ::ₘ es
  | pop, .ok (some e) => es.erase e
  | _, _ => es

end HeapOp

/-- What a call that takes `w` to `w'` may answer when the heap holds `es` in slots for `t.cap`. -/
inductive Answers {ksize : Nat} (cmp : Key ksize → Key ksize → Ordering) (a : Allocator) (w : World) (t : Info)
    (es : Multiset (Entry ksize)) (w' : World) : HeapOp ksize → Except IoError (Option (Entry ksize)) → Prop
  | pushed (e : Entry ksize) : Answers cmp a w t es w' (.push e) (.ok none)
  | refused (e : Entry ksize) {err : IoError} (herr : Failure a ksize w t err w') :
      Answers cmp a w t es w' (.push e) (.error err)
  | popped {o : Option (Entry ksize)} {es' : Multiset (Entry ksize)} (htaken : Taken cmp es o es') :
      Answers cmp a w t es w' .pop (.ok o)
  | failed {err : IoError} (herr : IoFailed w err) : Answers cmp a w t es w' .pop (.error err)

/-! ### The life of a heap -/

section Histories

variable {ksize : Nat} (cmp : Key ksize → Key ksize → Ordering) (a : Allocator) (handle : Nat)

def Untouched (ksize : Nat) (w w' : World) : Prop := ∀ t : Info, HeapAt ksize (w.files a.stack) handle t →
  ∀ r, r = ⟨handle, HEAP_SIZE⟩ ∨ (0 < t.cap ∧ r = ⟨t.data, t.cap * stride ksize⟩) →
    r ∈ (w'.files a.stack).live ∧ ∀ x, r.start ≤ x → x < r.stop →
      (w'.files a.stack).bytes x = (w.files a.stack).bytes x

/-- The life of a heap: it is made, called any number of times, and other code runs in between. -/
inductive History : World → Multiset (Entry ksize) → Prop
  | new {w : World} {tag : UInt64} {b : Range} (hnew : (new a tag w).out = .ok b) (hb : b.start = handle) :
      History (new a tag w).final 0
  | withCapacity {w : World} {tag : UInt64} {cap : Nat} {b : Range}
      (hnew : (withCapacity a ksize tag cap w).out = .ok b) (hb : b.start = handle) :
      History (withCapacity a ksize tag cap w).final 0
  | call {w : World} {es : Multiset (Entry ksize)} {out : Except IoError (Option (Entry ksize))} (op : HeapOp ksize)
      (more : Nat) (h : History w es) (hout : (op.run cmp a handle more w).out = out) :
      History (op.run cmp a handle more w).final (op.after es out)
  | elsewhere {w w' : World} {es : Multiset (Entry ksize)} (h : History w es)
      (hkeep : Untouched a handle ksize w w') : History w' es

end Histories

variable {ksize : Nat} {cmp : Key ksize → Key ksize → Ordering} {a : Allocator} {handle : Nat} {w w₀ : World}
  {es : Multiset (Entry ksize)} {t : Info} {s : Nat → Entry ksize}

/-! ### A fresh heap -/

section Fresh

variable (cmp)

/-- The array of `cap` slots at `data`. -/
def ArrayAt (ksize data cap : Nat) (f : File) : Prop :=
  (cap = 0 ∧ data = 0) ∨ (0 < cap ∧ ⟨data, cap * stride ksize⟩ ∈ f.live)

theorem withImage_spec (tag : UInt64) {data cap : Nat} (hsize : cap * stride ksize < 2 ^ 64) :
    Prog.Spec (Under w₀ a.stack (ArrayAt ksize data cap)) (withImage a tag data cap)
      (fun b w => Under w₀ a.stack (Heaped cmp b.start 0) w) (fun _ _ => True) fun _ => True := by
  have himage : leBytes 8 HEAP_SIZE ++ leBytes 8 tag.toNat ++ leBytes 8 data ++ leBytes 8 cap ++ leBytes 8 0 =
      [HEAP_SIZE, tag.toNat, data, cap, 0].flatMap (leBytes 8) := by
    simp only [List.flatMap_cons, List.flatMap_nil, List.append_nil, List.append_assoc]
  have hlength : ([HEAP_SIZE, tag.toNat, data, cap, 0].flatMap (leBytes 8)).length = HEAP_SIZE := by
    rw [← himage]
    simp [HEAP_SIZE, HEADER_SIZE]
  rw [withImage, himage]
  apply allocImage_under (J := fun b f => (⟨b.start, HEAP_SIZE⟩ ∈ f.live ∧ data ≠ b.start) ∧ ArrayAt ksize data cap f)
  · intro f r hr harray hlen
    rw [hlength] at hlen
    have hpos : 0 < HEAP_SIZE := by decide
    refine ⟨⟨?_, ?_⟩, ?_⟩
    · rw [← hlen]
      exact List.mem_cons_self
    · rcases harray with ⟨-, hdata⟩ | ⟨hcap, hlive⟩
      · have hin := hr.1
        omega
      · exact (hr.start_ne (hlen ▸ hpos) hlive (Nat.mul_pos hcap (stride_pos ksize))).symm
    · exact harray.imp id fun h => ⟨h.1, List.mem_cons_of_mem r h.2⟩
  · intro r f hf
    rw [hlength]
    exact (f.inside _ hf.1.1).2
  · intro r f hf
    obtain ⟨⟨hblock, hne⟩, harray⟩ := hf
    have hdata : data < 2 ^ 64 := by
      rcases harray with ⟨-, hzero⟩ | ⟨hcap, hlive⟩
      · omega
      · have hin := (f.inside _ hlive).2
        have haddr := f.addressable
        simp only [Range.stop] at hin
        omega
    have hcap : cap < 2 ^ 64 := Nat.lt_of_le_of_lt (Nat.le_mul_of_pos_right cap (stride_pos ksize)) hsize
    have hsmall : ∀ v ∈ [HEAP_SIZE, tag.toNat, data, cap, 0], v < 2 ^ 64 := by
      have htag := tag.toNat_lt
      intro v hv
      simp only [List.mem_cons, List.not_mem_nil, or_false] at hv
      rcases hv with rfl | rfl | rfl | rfl | rfl
      · decide
      · exact htag
      · exact hdata
      · exact hcap
      · decide
    have hword := fun i hi => word_image (i := i) hsmall (Mem.read_write_self f.bytes r.start _) hi
    have hat : HeapAt ksize (f.write r.start ([HEAP_SIZE, tag.toNat, data, cap, 0].flatMap (leBytes 8))) r.start
        ⟨data, cap, 0⟩ :=
      ⟨hblock, hword 2 (by simp), hword 3 (by simp), hword 4 (by simp), Nat.zero_le _, hne, harray⟩
    exact ⟨_, _, ⟨fun i _ hi => absurd hi (Nat.not_lt_zero i), rfl⟩, hat, fun i _ => rfl⟩

theorem withCapacity_spec (tag : UInt64) (cap : Nat) :
    Prog.Spec (Under w₀ a.stack fun _ => True) (withCapacity a ksize tag cap)
      (fun b w => Under w₀ a.stack (Heaped cmp b.start 0) w) (fun _ _ => True) fun _ => True := by
  rw [withCapacity]
  by_cases hcap : cap = 0
  · rw [if_pos hcap]
    apply (withImage_spec cmp tag (by omega)).weaken _ (fun _ _ h => h) (fun _ _ h => h) fun _ h => h
    exact fun w hw => hw.mono fun f _ => .inl ⟨rfl, rfl⟩
  · rw [if_neg hcap]
    by_cases hsize : cap * stride ksize < 2 ^ 64
    · rw [checkedMul, if_pos hsize, Prog.lift_ok, pure_bind]
      apply Prog.Spec.bind (alloc_under (J := fun r => ArrayAt ksize r.start cap) (fun f r hr _ hlen => ?_)
        (fun _ _ => trivial) fun _ _ _ _ => trivial)
      · intro data
        apply Prog.Spec.bind (Q := fun o w => ∀ b, o = .ok b → Under w₀ a.stack (Heaped cmp b.start 0) w)
        · apply Prog.Spec.attempt
          refine (withImage_spec cmp tag hsize).weaken (fun _ h => h) (fun b w hw b' hb => ?_) (fun e w _ b hb => ?_)
            fun _ h => h
          · cases hb
            exact hw
          · cases hb
        · intro built
          cases built with
          | ok b => exact Prog.Spec.pure fun w hw => hw b rfl
          | error e =>
              apply Prog.Spec.bind (Q := fun _ _ => True)
              · exact fun w _ => ⟨fun _ _ => trivial, fun _ _ => trivial, fun _ _ => trivial⟩
              · exact fun _ => Prog.Spec.fail fun _ _ => trivial
      · refine .inr ⟨Nat.pos_of_ne_zero hcap, ?_⟩
        rw [← hlen]
        exact List.mem_cons_self
    · rw [checkedMul, if_neg hsize]
      exact Prog.Spec.fail fun _ _ => trivial

end Fresh

/-! ### Calls -/

/-- The step lemma: the call answers as it may, and the heap holds what the answer says. -/
theorem HeapOp.run_cases [Std.TransCmp cmp] (hgood : Good cmp es t s) (hheld : Holds handle t s (w.files a.stack))
    (op : HeapOp ksize) (more : Nat) :
    Answers cmp a w t es (op.run cmp a handle more w).final op (op.run cmp a handle more w).out ∧
      Heaped cmp handle (op.after es (op.run cmp a handle more w).out)
      ((op.run cmp a handle more w).final.files a.stack) := by
  cases op with
  | push e =>
      have hpush : Prog.Spec (Under w a.stack (Holds handle t s)) ((HeapOp.push e).run cmp a handle more)
          (fun o w' => o = none ∧ Under w a.stack (Heaped cmp handle (e ::ₘ es)) w')
          (fun err w' => Failure a ksize w t err w' ∧ Under w a.stack (Heaped cmp handle es) w') fun _ => True := by
        apply (push_spec hgood e more).bind
        exact fun u => Prog.Spec.pure fun w' hw => ⟨rfl, hw⟩
      obtain ⟨hok, herr, -⟩ := hpush w (Under.refl hheld)
      cases hout : ((HeapOp.push e).run cmp a handle more w).out with
      | ok o =>
          obtain ⟨rfl, hw⟩ := hok o hout
          exact ⟨.pushed e, hw.1⟩
      | error err => exact ⟨.refused e (herr err hout).1, (herr err hout).2.1⟩
  | pop =>
      obtain ⟨hok, herr, -⟩ := pop_spec (a := a) hgood w (Under.refl hheld)
      show Answers cmp a w t es (BStackBinaryHeap.pop a handle cmp w).final .pop
        (BStackBinaryHeap.pop a handle cmp w).out ∧
        Heaped cmp handle (HeapOp.pop.after es (BStackBinaryHeap.pop a handle cmp w).out)
          ((BStackBinaryHeap.pop a handle cmp w).final.files a.stack)
      cases hout : (BStackBinaryHeap.pop a handle cmp w).out with
      | ok o =>
          obtain ⟨es', htaken, hw⟩ := hok o hout
          refine ⟨.popped htaken, ?_⟩
          cases htaken with
          | empty hempty => exact hw.1
          | least e hmem hleast => exact hw.1
      | error err => exact ⟨.failed (herr err hout).1, (herr err hout).2.1⟩

theorem History.heaped [Std.TransCmp cmp] (h : History cmp a handle w es) :
    Heaped cmp handle es (w.files a.stack) := by
  induction h with
  | new hnew hb =>
      rename_i w tag b
      obtain ⟨hok, -⟩ := withCapacity_spec (a := a) cmp tag 0 w (Under.refl trivial)
      exact hb ▸ (hok b hnew).1
  | withCapacity hnew hb =>
      obtain ⟨hok, -⟩ := withCapacity_spec cmp _ _ _ (Under.refl trivial)
      exact hb ▸ (hok _ hnew).1
  | call op more _ hout ih =>
      obtain ⟨t, s, hgood, hheld⟩ := ih
      exact hout ▸ (HeapOp.run_cases hgood hheld op more).2
  | elsewhere _ hkeep ih =>
      obtain ⟨t, s, hgood, hheld⟩ := ih
      exact ⟨t, s, hgood, hheld.frame (hkeep t hheld.1)⟩

/-! ### What the heap is worth -/

/-- A batch writes some of the first `n` slots, each once, and then the length `len`. -/
def OnceBatch (ksize data handle n len : Nat) (ws : Batch) : Prop :=
  ∃ moves : List (Nat × Entry ksize), ws = siftBatch data handle len moves ∧ Once n moves ∧
    (moves.map (slotWrite data)).Pairwise fun x y => Mem.Clear x.1 x.2.length y

/-- The elements are the same and the array is bigger. -/
def Enlarged (cmp : Key ksize → Key ksize → Ordering) (handle : Nat) (t : Info) (es : Multiset (Entry ksize))
    (f : File) : Prop :=
  ∃ t' s', Good cmp es t' s' ∧ Holds handle t' s' f ∧ t'.cap = newcapOf t.cap ∧ t.cap < t'.cap

/-- What the heap is worth in the state `w` when the reference is `es`. -/
structure Refines (cmp : Key ksize → Key ksize → Ordering) (a : Allocator) (handle : Nat) (w : World)
    (es : Multiset (Entry ksize)) (t : Info) (s : Nat → Entry ksize) : Prop where
  held : Holds handle t s (w.files a.stack)
  ordered : ∀ i, 0 < i → i < t.len → cmp (s ((i - 1) / 2)).1 (s i).1 ≠ .gt
  contents : (Multiset.range t.len).map s = es
  calls : ∀ (op : HeapOp ksize) (more : Nat),
    Answers cmp a w t es (op.run cmp a handle more w).final op (op.run cmp a handle more w).out
  drained : ∀ calls, (∃ xs rest, (drain a handle cmp calls w).out = .ok xs ∧ Drained cmp calls es xs rest) ∨
    ∃ e, (drain a handle cmp calls w).out = .error e ∧ IoFailed w e
  growth : ((grow a handle ksize w).out = .ok () ∧
      Enlarged cmp handle t es ((grow a handle ksize w).final.files a.stack)) ∨
    ∃ e, (grow a handle ksize w).out = .error e ∧ Failure a ksize w t e (grow a handle ksize w).final ∧
      Holds handle t s ((grow a handle ksize w).final.files a.stack)
  pushBatch : t.len < t.cap → ∀ (key : Key ksize) (valRef : UInt64) (ws : Batch),
    (pushWrites a handle cmp t.data t.len key valRef w).out = .ok ws →
      OnceBatch ksize t.data handle (t.len + 1) (t.len + 1) ws
  popBatch : 1 < t.len → ∀ ws : Batch,
    (popWrites a handle cmp t.data (t.len - 1) (slotImage (s (t.len - 1))) w).out = .ok ws →
      OnceBatch ksize t.data handle (t.len - 1) (t.len - 1) ws

theorem Once.batch {moves : List (Nat × Entry ksize)} {n len : Nat} (h : Once n moves) :
    OnceBatch ksize t.data handle n len (siftBatch t.data handle len moves) :=
  ⟨moves, rfl, h, slotWrites_apart t.data h.distinct⟩

theorem Good.growth (hgood : Good cmp es t s) (hheld : Holds handle t s (w.files a.stack)) :
    ((grow a handle ksize w).out = .ok () ∧
      Enlarged cmp handle t es ((grow a handle ksize w).final.files a.stack)) ∨
    ∃ e, (grow a handle ksize w).out = .error e ∧ Failure a ksize w t e (grow a handle ksize w).final ∧
      Holds handle t s ((grow a handle ksize w).final.files a.stack) := by
  obtain ⟨hok, herr, -⟩ := grow_spec (a := a) w (Under.refl hheld)
  cases hout : (grow a handle ksize w).out with
  | ok u =>
      obtain ⟨r, ⟨-, s', hmoved, hslots⟩, -⟩ := hok u hout
      refine .inl ⟨rfl, ⟨r.start, newcapOf t.cap, t.len⟩, s', ⟨?_, ?_⟩, hmoved, rfl, hheld.1.cap_lt_newcap⟩
      · exact hgood.ordered.congr hslots
      · exact (Heap.contents_congr hslots).trans hgood.contents
  | error e => exact .inr ⟨e, rfl, (herr e hout).1, (herr e hout).2.1⟩

theorem Good.drained [Std.TransCmp cmp] (hgood : Good cmp es t s) (hheld : Holds handle t s (w.files a.stack))
    (calls : Nat) : (∃ xs rest, (drain a handle cmp calls w).out = .ok xs ∧ Drained cmp calls es xs rest) ∨
      ∃ e, (drain a handle cmp calls w).out = .error e ∧ IoFailed w e := by
  have hheaped : Heaped cmp handle es (w.files a.stack) := ⟨t, s, hgood, hheld⟩
  obtain ⟨hok, herr, -⟩ := drain_spec (a := a) calls w (Under.refl hheaped)
  cases hout : (drain a handle cmp calls w).out with
  | ok xs =>
      obtain ⟨rest, hdrained, -⟩ := hok xs hout
      exact .inl ⟨xs, rest, rfl, hdrained⟩
  | error e => exact .inr ⟨e, rfl, (herr e hout).1⟩

/-- In every state of its life the heap is in order and holds the reference; a push adds its element and a
pop takes a least one; draining yields the elements in order; growing keeps them; and a batch writes each
slot at most once. -/
theorem heap_refines_multiset [Std.TransCmp cmp] (h : History cmp a handle w es) :
    ∃ t s, Refines cmp a handle w es t s := by
  obtain ⟨t, s, hgood, hheld⟩ := h.heaped
  refine ⟨t, s, hheld, hgood.ordered, hgood.contents, fun op more => (HeapOp.run_cases hgood hheld op more).1,
    hgood.drained hheld, hgood.growth hheld, fun hroom key valRef ws hws => ?_, fun hmany ws hws => ?_⟩
  · obtain ⟨hok, -⟩ := (pushWrites_spec (C := fun _ => True) (key, valRef) hroom :
      Prog.Spec _ (pushWrites a handle cmp t.data t.len key valRef) _ _ _) w (Under.refl hheld)
    rw [(hok ws hws).1]
    exact (pushMoves_once s (key, valRef) t.len).batch
  · have hpos : 0 < t.len - 1 := Nat.sub_pos_of_lt hmany
    have hle : t.len - 1 ≤ t.cap := Nat.le_trans (Nat.sub_le _ _) hheld.1.len_le
    have hspec : Prog.Spec (Under w a.stack (Holds handle t s))
        (popWrites a handle cmp t.data (t.len - 1) (slotImage (s (t.len - 1)))) _ _ fun _ => True :=
      popWrites_spec hpos hle
    rw [((hspec w (Under.refl hheld)).1 ws hws).1]
    exact (popMoves_once s hpos).batch

/-! ### A run -/

section Example

def byteCmp : Key 1 → Key 1 → Ordering := compareOn fun k => (k.val.headD 0).toNat

instance : Std.TransCmp byteCmp :=
  inferInstanceAs (Std.TransCmp (compareOn fun k : Key 1 => (k.val.headD 0).toNat))

def byteKey (b : UInt8) : Key 1 := ⟨[b], List.length_singleton⟩

def oneAllocator : Allocator := ⟨0, true, none, 0⟩

def freshHeap : World := (new oneAllocator 7 (World.blank [16, 1000])).final

def onePushed : World := ((HeapOp.push (byteKey 5, 1)).run byteCmp oneAllocator 16 0 freshHeap).final

def twoPushed : World := ((HeapOp.push (byteKey 3, 2)).run byteCmp oneAllocator 16 0 onePushed).final

theorem heap_refines_multiset_twice :
    ∃ t s, Refines byteCmp oneAllocator 16 twoPushed ((byteKey 3, 2) ::ₘ (byteKey 5, 1) ::ₘ 0) t s :=
  have hnew : History byteCmp oneAllocator 16 freshHeap 0 := @History.new _ _ _ _ _ 7 ⟨16, 40⟩ rfl rfl
  have hone := hnew.call (.push (byteKey 5, 1)) 0
    (show _ = (.ok none : Except IoError (Option (Entry 1))) by decide +kernel)
  have htwo := hone.call (.push (byteKey 3, 2)) 0
    (show _ = (.ok none : Except IoError (Option (Entry 1))) by decide +kernel)
  heap_refines_multiset htwo

end Example

end BStackBinaryHeap

end BStackRaii
