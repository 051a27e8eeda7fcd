import BStackRaii.Proof.Tree.Delete
import BStackRaii.Proof.Effects
/-!
# Nodes on disk

A node that fits its slots survives its image. So a mutation may be followed from the nodes it finds
in the file to the nodes it leaves there: it allocates blocks, keeps every block that was live, and
writes only when it commits.
-/

namespace BStackRaii

namespace BStackBTreeMap

variable {ksize : Nat}

/-! ### The round trip of a node -/

section Image

variable {nb : BNode ksize}

theorem length_keys (nb : BNode ksize) :
    (nb.entries.flatMap fun e => e.1.val).length = nb.entries.length * ksize :=
  length_records (fun e : Entry ksize => e.1.val) (fun e => e.1.property) nb.entries

theorem length_vals (nb : BNode ksize) :
    (nb.entries.flatMap fun e => leBytes 8 e.2.toNat).length = nb.entries.length * 8 :=
  length_records (fun e : Entry ksize => leBytes 8 e.2.toNat) (fun _ => length_leBytes 8 _) nb.entries

theorem length_children (nb : BNode ksize) :
    (nb.children.flatMap (leBytes 8)).length = nb.children.length * 8 :=
  length_records (leBytes 8) (length_leBytes 8) nb.children

theorem Fits.keys_le (hf : Fits nb) : nb.entries.length * ksize ≤ MAXKEYS * ksize :=
  Nat.mul_le_mul_right ksize hf.count

theorem Fits.children_le (hf : Fits nb) : nb.children.length ≤ MAXCHILDREN := by
  have hcount : nb.entries.length ≤ MAXKEYS := hf.count
  rw [hf.arity]
  split
  · exact Nat.zero_le _
  · simp only [MAXKEYS, MAXCHILDREN, T] at *
    omega

theorem buffer_nkeys (hf : Fits nb) : (buffer nb).word NKEYS_OFF = nb.entries.length := by
  have hcount : nb.entries.length < 2 ^ 64 := Nat.lt_of_le_of_lt hf.count (by decide)
  unfold buffer
  rw [Mem.word_write_disjoint (.inl ?_), Mem.word_write_disjoint (.inl ?_),
    Mem.word_write_disjoint (.inl ?_), Mem.word_write_disjoint (.inl ?_), Mem.word_write_self hcount]
  all_goals
    simp only [NKEYS_OFF, LEAF_OFF, KEYS_OFF, valsOff, childrenOff, HEADER_SIZE]
    omega

theorem buffer_leaf (nb : BNode ksize) : (buffer nb).word LEAF_OFF = nb.leaf.toNat := by
  have hbit : nb.leaf.toNat < 2 ^ 64 := by cases nb.leaf <;> decide
  unfold buffer
  rw [Mem.word_write_disjoint (.inl ?_), Mem.word_write_disjoint (.inl ?_),
    Mem.word_write_disjoint (.inl ?_), Mem.word_write_self hbit]
  all_goals
    simp only [LEAF_OFF, KEYS_OFF, valsOff, childrenOff, HEADER_SIZE]
    omega

theorem buffer_key (hf : Fits nb) {i : Nat} (hi : i < nb.entries.length) :
    (buffer nb).read (KEYS_OFF + i * ksize) ksize = nb.entries[i].1.val := by
  have hkeys := hf.keys_le
  have hrow : i * ksize + ksize ≤ nb.entries.length * ksize := by
    rw [← Nat.succ_mul]
    exact Nat.mul_le_mul_right ksize hi
  unfold buffer
  rw [Mem.read_write_disjoint (.inl ?_), Mem.read_write_disjoint (.inl ?_),
    Mem.read_write_window _ _ _ (by rw [length_keys]; exact hrow),
    take_drop_records (fun e : Entry ksize => e.1.val) (fun e => e.1.property) _ hi]
  all_goals
    simp only [childrenOff, valsOff]
    omega

theorem buffer_val (hf : Fits nb) {i : Nat} (hi : i < nb.entries.length) :
    (buffer nb).word (valsOff ksize + i * 8) = nb.entries[i].2.toNat := by
  have hcount := hf.count
  unfold buffer
  rw [Mem.word_write_disjoint (.inl ?_), Mem.word,
    Mem.read_write_window _ _ _ (by rw [length_vals]; omega),
    take_drop_records (fun e : Entry ksize => leBytes 8 e.2.toNat) (fun _ => length_leBytes 8 _) _ hi,
    leNat_leBytes (by simpa using nb.entries[i].2.toNat_lt)]
  simp only [childrenOff]
  omega

theorem buffer_child (hf : Fits nb) {i : Nat} (hi : i < nb.children.length) :
    (buffer nb).word (childrenOff ksize + i * 8) = nb.children[i] := by
  unfold buffer
  rw [Mem.word, Mem.read_write_window _ _ _ (by rw [length_children]; omega),
    take_drop_records (leBytes 8) (length_leBytes 8) _ hi,
    leNat_leBytes (by simpa using hf.child _ (List.getElem_mem hi))]

theorem read_image {nb : BNode ksize} {off n : Nat} (h : off + n ≤ nodeSize ksize) :
    (Mem.zero.write 0 (image nb)).read off n = (buffer nb).read off n := by
  have hwindow := Mem.read_write_window Mem.zero 0 (image nb) (i := off) (n := n) (by simpa [image] using h)
  rw [Nat.zero_add] at hwindow
  rw [hwindow, image, Mem.take_drop_read h, Nat.zero_add]

theorem word_image {nb : BNode ksize} {off : Nat} (h : off + 8 ≤ nodeSize ksize) :
    (Mem.zero.write 0 (image nb)).word off = (buffer nb).word off := by
  rw [Mem.word, read_image h, ← Mem.word]

theorem entryAt_image (hf : Fits nb) {i : Nat} (hi : i < nb.entries.length) :
    entryAt (Mem.zero.write 0 (image nb)) i = nb.entries[i] := by
  have hkeys := hf.keys_le
  have hcount := hf.count
  have hrow : i * ksize + ksize ≤ nb.entries.length * ksize := by
    rw [← Nat.succ_mul]
    exact Nat.mul_le_mul_right ksize hi
  have hval : valsOff ksize + i * 8 + 8 ≤ nodeSize ksize := by
    simp only [nodeSize, childrenOff]
    omega
  apply Prod.ext
  · apply Subtype.ext
    simp only [entryAt]
    rw [read_image, buffer_key hf hi]
    simp only [nodeSize, childrenOff, valsOff]
    omega
  · simp only [entryAt]
    rw [word_image hval, buffer_val hf hi, UInt64.ofNat_toNat]

theorem decode_image (hf : Fits nb) : decode (image nb) = .ok nb := by
  have hcount : ¬ MAXKEYS < nb.entries.length := Nat.not_lt.mpr hf.count
  have hchildren := hf.children_le
  have hn : NKEYS_OFF + 8 ≤ nodeSize ksize := by
    simp only [nodeSize, childrenOff, valsOff, KEYS_OFF, NKEYS_OFF]
    omega
  have hl : LEAF_OFF + 8 ≤ nodeSize ksize := by
    simp only [nodeSize, childrenOff, valsOff, KEYS_OFF, LEAF_OFF]
    omega
  have hentries : (List.range nb.entries.length).map (entryAt (Mem.zero.write 0 (image nb))) =
      nb.entries := by
    apply List.ext_getElem
    · simp
    · intro i h1 h2
      simp only [List.getElem_map, List.getElem_range]
      exact entryAt_image hf h2
  unfold decode
  simp only [word_image hn, buffer_nkeys hf, if_neg hcount, word_image hl, buffer_leaf, hentries]
  congr 1
  obtain ⟨leaf, entries, children⟩ := nb
  cases leaf with
  | true =>
      have hnil : children = [] := List.length_eq_zero_iff.mp (by simpa using hf.arity)
      simp [hnil]
  | false =>
      have harity : children.length = entries.length + 1 := by simpa using hf.arity
      have hkids : (List.range (entries.length + 1)).map
          (fun i => (Mem.zero.write 0 (image ⟨false, entries, children⟩)).word
            (childrenOff ksize + i * 8)) = children := by
        apply List.ext_getElem
        · simp [harity]
        · intro i h1 h2
          simp only [List.getElem_map, List.getElem_range]
          rw [word_image, buffer_child hf h2]
          simp only [nodeSize] at hchildren ⊢
          omega
      simp only [Bool.toNat_false, ne_eq, not_true_eq_false, decide_false, Bool.false_eq_true, if_false, hkids]

end Image

/-! ### Following a plan -/

section Building

def block (ksize off : Nat) : Range := ⟨off, nodeSize ksize⟩

/-- The node in the live block at `off`. -/
def nodeAt (ksize : Nat) (a : Allocator) (w : World) (off : Nat) : Option (BNode ksize) :=
  if block ksize off ∈ (w.files a.stack).live then
    (decode ((w.files a.stack).bytes.read off (nodeSize ksize))).toOption
  else none

variable {a : Allocator} {w w₀ : World} {off : Nat} {nb : BNode ksize}

theorem nodeAt_eq_some : nodeAt ksize a w off = some nb ↔
    block ksize off ∈ (w.files a.stack).live ∧
      decode ((w.files a.stack).bytes.read off (nodeSize ksize)) = .ok nb := by
  unfold nodeAt
  split
  · rename_i hlive
    cases hd : (decode ((w.files a.stack).bytes.read off (nodeSize ksize)) : Except IoError (BNode ksize)) <;>
      simp [hlive, Except.toOption]
  · rename_i hlive
    simp [hlive]

/-- The count that `child_nkeys` reads is the count of the node. -/
theorem decode_count {b : List UInt8} (hb : b.length = nodeSize ksize) (hd : decode b = .ok nb) :
    leNat ((b.drop NKEYS_OFF).take 8) = nb.entries.length ∧ nb.entries.length ≤ MAXKEYS := by
  have hword : (Mem.zero.write 0 b).word NKEYS_OFF = leNat ((b.drop NKEYS_OFF).take 8) := by
    have hwindow := Mem.read_write_window Mem.zero 0 b (i := NKEYS_OFF) (n := 8) (by
      simp only [hb, nodeSize, childrenOff, valsOff, KEYS_OFF, NKEYS_OFF]
      omega)
    rw [Nat.zero_add] at hwindow
    rw [Mem.word, hwindow]
  simp only [decode, hword] at hd
  split at hd
  · cases hd
  · rename_i hcount
    have hnb := Except.ok.inj hd
    rw [← hnb]
    simp only [List.length_map, List.length_range]
    exact ⟨trivial, Nat.le_of_not_lt hcount⟩

def blocks (em : List (Nat × BNode ksize)) : List Range := (em.map fun x => block ksize x.1).reverse

/-- While a plan runs: the images and offsets collected so far, and the blocks behind them. -/
def Building (a : Allocator) (w₀ : World) (em : List (Nat × BNode ksize)) (rt : List Nat)
    (s : Build × World) : Prop :=
  s.1 = ⟨em.map fun x => (x.1, image x.2), rt⟩ ∧ Grown a.stack (blocks em) w₀ s.2

theorem readNode_grown {rs : List Range} (hn : nodeAt ksize a w₀ off = some nb) {C : World → Prop} :
    Prog.Spec (Grown a.stack rs w₀) (readNode ksize a.stack off) (fun m w => m = nb ∧ Grown a.stack rs w₀ w)
      (fun e w => IoFailed w₀ e ∧ Grown a.stack rs w₀ w) C := by
  obtain ⟨hlive, hd⟩ := nodeAt_eq_some.mp hn
  apply (getInto_grown hlive (Nat.le_refl off) (Nat.le_refl (off + nodeSize ksize))).bind_value
  rw [hd]
  exact Prog.Spec.pure fun _ hs => ⟨rfl, hs⟩

theorem childNkeys_grown {rs : List Range} (hn : nodeAt ksize a w₀ off = some nb) {C : World → Prop} :
    Prog.Spec (Grown a.stack rs w₀) (childNkeys a.stack off)
      (fun m w => m = nb.entries.length ∧ Grown a.stack rs w₀ w)
      (fun e w => IoFailed w₀ e ∧ Grown a.stack rs w₀ w) C := by
  obtain ⟨hlive, hd⟩ := nodeAt_eq_some.mp hn
  obtain ⟨hcount, hmax⟩ := decode_count (Mem.length_read ..) hd
  have hn : NKEYS_OFF + 8 ≤ nodeSize ksize := by
    simp only [nodeSize, childrenOff, valsOff, KEYS_OFF, NKEYS_OFF]
    omega
  rw [Mem.take_drop_read hn] at hcount
  have hinside := ((w₀.files a.stack).inside _ hlive).2
  have haddr : off + NKEYS_OFF < 2 ^ 64 := by
    have hlen := (w₀.files a.stack).addressable
    simp only [block, Range.stop] at hinside
    omega
  unfold childNkeys
  rw [if_pos haddr]
  have hfield : off + NKEYS_OFF + 8 ≤ (block ksize off).stop := by
    simp only [block, Range.stop]
    omega
  apply (readU64_grown hlive (Nat.le_add_right off NKEYS_OFF) hfield).bind_value
  rw [Mem.word, hcount, if_neg (Nat.not_lt.mpr hmax)]
  exact Prog.Spec.pure fun _ hs => ⟨rfl, hs⟩

/-- A step on the file, seen from the plan that makes it. -/
theorem Building.step {α : Type} {c : Io α} {em : List (Nat × BNode ksize)} {Q : α → World → Prop}
    {E : IoError → World → Prop} (hE : ∀ e w, E e w → EnvError a (nodeSize ksize) w₀ e w)
    (h : Prog.Spec (Grown a.stack (blocks em) w₀) c Q
      (fun e w => E e w ∧ Grown a.stack (blocks em) w₀ w) fun w => ∃ rs, Grown a.stack rs w₀ w)
    (rt : List Nat) :
    Prog.Spec (Building a w₀ em rt) c.onSnd
      (fun x s => s.1 = ⟨em.map fun x => (x.1, image x.2), rt⟩ ∧ Q x s.2)
      (fun e s => EnvError a (nodeSize ksize) w₀ e s.2 ∧ Building a w₀ em rt s)
      fun s => ∃ rs, Grown a.stack rs w₀ s.2 := by
  have hstep := h.onSnd fun b : Build => b = ⟨em.map fun x => (x.1, image x.2), rt⟩
  exact hstep.weaken (fun _ hs => hs) (fun _ _ hs => hs) (fun _ _ hs => ⟨hE _ _ hs.2.1, hs.1, hs.2.2⟩)
    fun _ hs => hs

theorem serves (ksize : Nat) (a : Allocator) (w₀ : World) :
    Plan.Serves (nodes ksize a) (store (nodeAt ksize a w₀)) (Building a w₀)
      (fun e s => EnvError a (nodeSize ksize) w₀ e s.2) (fun s => ∃ rs, Grown a.stack rs w₀ s.2) where
  read em rt off nb hn := by
    apply (Building.step (fun _ _ => .inl) (readNode_grown hn) rt).weaken (fun _ => id) ?_ (fun _ _ => id) fun _ => id
    rintro m s ⟨hb, rfl, hw⟩
    exact ⟨rfl, hb, hw⟩
  peek em rt off nb hn := by
    apply (Building.step (fun _ _ => .inl) (childNkeys_grown hn) rt).weaken (fun _ => id) ?_ (fun _ _ => id) fun _ => id
    rintro m s ⟨hb, rfl, hw⟩
    exact ⟨rfl, hb, hw⟩
  emit em rt nb hfits := by
    apply (Building.step (fun _ _ => id) (alloc_grown (nodeSize ksize) fun w hw => ⟨_, hw⟩) rt).bind
    intro r
    apply Prog.Spec.bind (Q := fun _ s => Addr r.start ∧ Building a w₀ (em ++ [(r.start, nb)]) rt s)
    · apply Prog.Spec.onFst
      rintro ⟨b, w⟩ ⟨rfl, hlen, hlo, hhi, hw⟩
      have hstart : r.start < 2 ^ 64 := Nat.lt_of_le_of_lt (Nat.le_add_right _ r.len) hhi
      refine ⟨⟨Nat.lt_of_lt_of_le (by decide) hlo, hstart⟩, ?_, ?_⟩
      · simp
      · obtain ⟨start, len⟩ := r
        simp only at hlen
        simpa [blocks, block, hlen] using hw
    · exact fun _ => Prog.Spec.pure fun _ => id
  retire em rt off nb hn := by
    refine Prog.Spec.onFst (f := fun b : Build => ⟨b.writes, b.freed ++ [off]⟩) ?_
    rintro ⟨b, w⟩ ⟨rfl, hw⟩
    exact ⟨rfl, hw⟩

end Building

end BStackBTreeMap

end BStackRaii
