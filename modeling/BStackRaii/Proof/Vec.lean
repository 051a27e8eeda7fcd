import BStackRaii.Model.Vec
import BStackRaii.Proof.Faults
import BStackRaii.Proof.Update
/-!
# A push and its error

A push has one commit point: the appended length, or the descriptor that names the new block. The steps behind
it can fail too, and then the push reports an error and hands back an element that the vector holds. `Staged`
says what a push has done before that point, and the theorem that an error is exact unless a step behind it fails.
-/

namespace BStackRaii

/-! ### Blocks of bytes -/

/-- The data block `r` holds `content`, in room for `cap` bytes. -/
structure ByteBlock (f : File) (r : Range) (content : List UInt8) (cap : Nat) : Prop where
  live : r ∈ f.live
  lenWord : f.bytes.word r.start = content.length
  capWord : f.bytes.word (r.start + 8) = cap
  fits : content.length ≤ cap
  room : BYTEVEC_HEADER + cap ≤ r.len
  read : f.bytes.read (r.start + BYTEVEC_HEADER) content.length = content

theorem ByteBlock.congr {f f' : File} {r : Range} {content : List UInt8} {cap : Nat} (h : ByteBlock f r content cap)
    (hlive : r ∈ f'.live) (hbytes : ∀ x, r.start ≤ x → x < r.stop → f'.bytes x = f.bytes x) :
    ByteBlock f' r content cap := by
  have hroom := h.room
  have hfits := h.fits
  simp only [BYTEVEC_HEADER] at hroom
  have hstop : r.stop = r.start + r.len := rfl
  have hword : ∀ i, i + 8 ≤ 16 → f'.bytes.word (r.start + i) = f.bytes.word (r.start + i) := fun i hi =>
    Mem.word_congr fun x hx hx' => hbytes x (by omega) (by omega)
  refine ⟨hlive, ?_, ?_, hfits, h.room, ?_⟩
  · rw [← h.lenWord]
    exact hword 0 (by omega)
  · rw [← h.capWord]
    exact hword 8 (by omega)
  · have hsame : f'.bytes.read (r.start + BYTEVEC_HEADER) content.length =
        f.bytes.read (r.start + BYTEVEC_HEADER) content.length := by
      simp only [BYTEVEC_HEADER]
      exact Mem.read_congr fun x hx hx' => hbytes x (by omega) (by omega)
    rw [hsame, h.read]

/-- The blocks of `w` other than `r` are in `w'` as they were. -/
def Beside (k : Nat) (r : Range) (w w' : World) : Prop := ∀ b ∈ (w.files k).live, b ≠ r →
  b ∈ (w'.files k).live ∧ ∀ x, b.start ≤ x → x < b.stop → (w'.files k).bytes x = (w.files k).bytes x

/-- What `BStackByteVec` promises of its calls in file `k`: reads read, an append that fits stays in its block, and
one that moves frees the block it leaves. An append that fails has committed no length: the block is as it was, or
was given up for one with more room. -/
structure ByteVecLaws (bv : ByteVec) (k : Nat) : Prop where
  len : ∀ {w : World} {r : Range} {content : List UInt8} {cap : Nat}, ByteBlock (w.files k) r content cap →
    Grown k [] w (bv.len r w).final ∧ ∀ n, (bv.len r w).out = .ok n → n = content.length
  capacity : ∀ {w : World} {r : Range} {content : List UInt8} {cap : Nat}, ByteBlock (w.files k) r content cap →
    Grown k [] w (bv.capacity r w).final ∧ ∀ n, (bv.capacity r w).out = .ok n → n = cap
  beside : ∀ {w : World} {r : Range} {content : List UInt8} {cap : Nat} (bytes : List UInt8),
    ByteBlock (w.files k) r content cap → Beside k r w (bv.extendFromSlice r bytes w).final
  fails : ∀ {w : World} {r : Range} {content : List UInt8} {cap : Nat} {bytes : List UInt8} {e : IoError},
    ByteBlock (w.files k) r content cap → (bv.extendFromSlice r bytes w).out = .error e →
    ByteBlock ((bv.extendFromSlice r bytes w).final.files k) r content cap ∨
      (cap < content.length + bytes.length ∧ r ∉ ((bv.extendFromSlice r bytes w).final.files k).live)
  appends : ∀ {w : World} {r r' : Range} {content : List UInt8} {cap : Nat} {bytes : List UInt8},
    ByteBlock (w.files k) r content cap → (bv.extendFromSlice r bytes w).out = .ok r' →
    (∃ cap', ByteBlock ((bv.extendFromSlice r bytes w).final.files k) r' (content ++ bytes) cap') ∧
      (content.length + bytes.length ≤ cap → r' = r) ∧
      (bv.extendFromSlice r bytes w).final.freed = w.freed ++ if r' = r then [] else [(k, r)]

/-! ### Steps on a file -/

section Steps

variable {k : Nat} {P Q C : World → Prop} {off src dst n : Nat} {data : List UInt8}

/-- A write whose bytes depend on the file: an error leaves `P`, and is no overflow. -/
theorem checked_step {check : World → Prop} [DecidablePred check] {act : World → World} (htick : ∀ w, P w → P w.tick)
    (hact : ∀ w, P w → Q (act w)) (hC : ∀ w, P w → C w) :
    Prog.Spec P (Prog.durable fun w => if w.Faulty then (.error ioFault, w.tick)
      else if check w then (.ok (), act w) else (.error outOfBounds, w.tick)) (fun _ => Q)
      (fun e w => e ≠ BStackVec.overflowed ∧ P w) C :=
  checked_rule (fun w hw _ => hact w hw) (fun w hw _ => ⟨by decide, htick w hw⟩)
    (fun w hw _ => ⟨by decide, htick w hw⟩) hC

theorem set_step (htick : ∀ w, P w → P w.tick) (hwrite : ∀ w, P w → Q (w.store k off data)) (hC : ∀ w, P w → C w) :
    Prog.Spec P (set k off data) (fun _ => Q) (fun e w => e ≠ BStackVec.overflowed ∧ P w) C :=
  checked_step htick (fun w hw => hwrite _ (htick w hw)) hC

theorem copy_step (htick : ∀ w, P w → P w.tick)
    (hwrite : ∀ w, P w → Q (w.store k dst ((w.files k).bytes.read src n))) (hC : ∀ w, P w → C w) :
    Prog.Spec P (copy k src dst n) (fun _ => Q) (fun e w => e ≠ BStackVec.overflowed ∧ P w) C :=
  checked_step htick (fun w hw => hwrite _ (htick w hw)) hC

end Steps

namespace Grown

variable {k : Nat} {r : Range} {rs rs' : List Range} {w₀ w w' : World} {off : Nat} {data : List UInt8}

theorem trans (h : Grown k rs w₀ w) (h' : Grown k rs' w w') : Grown k (rs' ++ rs) w₀ w' where
  live := by rw [h'.live, h.live, List.append_assoc]
  bytes b hb x hx hx' := by rw [h'.bytes b (h.mem_live hb) x hx hx', h.bytes b hb x hx hx']
  len := Nat.le_trans h.len h'.len
  others j hj := by rw [h'.others j hj, h.others j hj]
  freed := by rw [h'.freed, h.freed]
  onward := h.onward.trans h'.onward

theorem store_new (h : Grown k (r :: rs) w₀ w) (hlo : r.start ≤ off) (hhi : off + data.length ≤ r.stop) :
    Grown k (r :: rs) w₀ (w.store k off data) where
  live := by rw [World.live_store, h.live]
  bytes b hb x hx hx' := by
    have hlive : (w.files k).live = r :: (rs ++ (w₀.files k).live) := h.live
    have hpair := (w.files k).apart
    rw [hlive] at hpair
    have hapart := (List.rel_of_pairwise_cons hpair (List.mem_append_right rs hb)).2
    rw [World.files_store_same, File.bytes_write, ← h.bytes b hb x hx hx']
    rcases hapart with hapart | hapart
    · exact Mem.write_of_ge (by omega)
    · exact Mem.write_of_lt (by omega)
  len := by
    rw [World.files_store_same, File.len_write]
    exact h.len
  others j hj := by rw [World.files_store_ne hj, h.others j hj]
  freed := h.freed
  onward := ⟨h.onward.quiet, h.onward.picks⟩

end Grown

namespace BStackVec

/-! ### A growth -/

/-- Every block of `w` is in `w'` as it was. -/
def Kept (k : Nat) (w w' : World) : Prop := ∀ b ∈ (w.files k).live, b ∈ (w'.files k).live ∧
  ∀ x, b.start ≤ x → x < b.stop → (w'.files k).bytes x = (w.files k).bytes x

theorem Kept.of_grown {k : Nat} {rs : List Range} {w w' : World} (h : Grown k rs w w') : Kept k w w' :=
  fun b hb => ⟨h.mem_live hb, h.bytes b hb⟩

theorem Kept.of_released {k : Nat} {slice : Range} {w w' : World} (h : Grown k [slice] w w') :
    Kept k w (w'.release k slice) := by
  intro b hb
  refine ⟨?_, fun x hx hx' => ?_⟩
  · rw [World.files_release_same, File.live_free, h.live, List.singleton_append, List.erase_cons_head]
    exact hb
  · rw [World.files_release_same, File.bytes_free]
    exact h.bytes b hb x hx hx'

section Growth

variable {a : Allocator} {w₁ : World} {old slice : Range} {content value : List UInt8} {cap newCap : Nat}

/-- The header words of the new block. -/
structure Headed (k : Nat) (w₁ : World) (slice : Range) (newLen newCap : Nat) (w : World) : Prop where
  grown : Grown k [slice] w₁ w
  len : (w.files k).bytes.word slice.start = newLen
  cap : (w.files k).bytes.word (slice.start + 8) = newCap

theorem Headed.tick {k newLen : Nat} {w : World} (h : Headed k w₁ slice newLen newCap w) :
    Headed k w₁ slice newLen newCap w.tick := { h with grown := h.grown.tick }

theorem Headed.store {k newLen off : Nat} {w : World} {data : List UInt8} (h : Headed k w₁ slice newLen newCap w)
    (hlo : slice.start + BYTEVEC_HEADER ≤ off) (hhi : off + data.length ≤ slice.stop) :
    Headed k w₁ slice newLen newCap (w.store k off data) := by
  simp only [BYTEVEC_HEADER] at hlo
  refine ⟨h.grown.store_new (by omega) hhi, ?_, ?_⟩
  · rw [World.files_store_same, File.bytes_write, Mem.word_write_disjoint (.inl (by omega)), h.len]
  · rw [World.files_store_same, File.bytes_write, Mem.word_write_disjoint (.inl (by omega)), h.cap]

theorem word_header (m : Mem) (off : Nat) {len cap i : Nat} (hlen : len < 2 ^ 64) (hcap : cap < 2 ^ 64) (hi : i < 2) :
    (m.write off (bytevecImage len cap)).word (off + i * 8) = [len, cap][i] := by
  have himage : bytevecImage len cap = [len, cap].flatMap (leBytes 8) := by simp [bytevecImage]
  rw [himage]
  refine word_image (fun v hv => ?_) (Mem.read_write_self ..) hi
  rcases List.mem_cons.mp hv with rfl | hv
  · exact hlen
  · rw [List.mem_singleton.mp hv]
    exact hcap

theorem copyOld_checked {len : Nat} : copyOld a .checked old slice len =
    if 0 < len then copy a.stack (old.start + BYTEVEC_HEADER) (slice.start + BYTEVEC_HEADER) len else pure () := by
  simp only [copyOld, Sums.checked, Prog.lift_ok, pure_bind]

theorem build_checked {len newLen : Nat} : build a .checked old slice len newLen newCap value = (do
    set a.stack slice.start (bytevecImage newLen newCap)
    copyOld a .checked old slice len
    set a.stack (slice.start + BYTEVEC_HEADER + len) value) := by
  simp only [build, Sums.checked, Prog.lift_ok, pure_bind]

theorem build_spec (hb : ByteBlock (w₁.files a.stack) old content cap) (hslice : slice.len = BYTEVEC_HEADER + newCap)
    (hlen : content.length + value.length ≤ newCap) (hcap : newCap < 2 ^ 64) :
    Prog.Spec (Grown a.stack [slice] w₁)
      (build a .checked old slice content.length (content.length + value.length) newCap value)
      (fun _ w => Grown a.stack [slice] w₁ w ∧ ByteBlock (w.files a.stack) slice (content ++ value) newCap)
      (fun _ w => Grown a.stack [slice] w₁ w) fun _ => True := by
  have hstop : slice.stop = slice.start + slice.len := rfl
  have holdstop : old.stop = old.start + old.len := rfl
  have hroom := hb.room
  have hfits := hb.fits
  have hheader : ∀ w, Grown a.stack [slice] w₁ w → Headed a.stack w₁ slice (content.length + value.length) newCap
      (w.store a.stack slice.start (bytevecImage (content.length + value.length) newCap)) := by
    intro w hw
    have hword := fun i (hi : i < 2) => word_header (w.files a.stack).bytes slice.start
      (Nat.lt_of_le_of_lt hlen hcap) hcap hi
    refine ⟨hw.store_new (Nat.le_refl _) ?_, ?_, ?_⟩
    · simp only [bytevecImage, List.length_append, length_leBytes, hstop, hslice, BYTEVEC_HEADER]
      omega
    · rw [World.files_store_same, File.bytes_write]
      exact hword 0 (by decide)
    · rw [World.files_store_same, File.bytes_write]
      exact hword 1 (by decide)
  have hold : ∀ w, Grown a.stack [slice] w₁ w →
      (w.files a.stack).bytes.read (old.start + BYTEVEC_HEADER) content.length = content := by
    intro w hw
    rw [hw.read_eq hb.live (Nat.le_add_right ..) (by omega), hb.read]
  rw [build_checked]
  apply ((set_step (fun _ hw => hw.tick) hheader fun _ _ => trivial).onError fun _ _ hw => hw.2).bind
  intro _
  apply Prog.Spec.bind (Q := fun _ w => Headed a.stack w₁ slice (content.length + value.length) newCap w ∧
    (w.files a.stack).bytes.read (slice.start + BYTEVEC_HEADER) content.length = content)
  · rw [copyOld_checked]
    split
    · refine (copy_step (fun _ hw => hw.tick) (fun w hw => ?_) fun _ _ => trivial).onError fun _ _ hw => hw.2.grown
      refine ⟨hw.store (Nat.le_refl _) (by simp only [Mem.length_read]; omega), ?_⟩
      rw [World.files_store_same, File.bytes_write, Mem.read_write_eq _ _ (Mem.length_read ..), hold w hw.grown]
    · rename_i hempty
      have hnil : content = [] := List.length_eq_zero_iff.mp (by omega)
      refine Prog.Spec.pure fun w hw => ⟨hw, ?_⟩
      rw [hnil]
      rfl
  · intro _
    refine (set_step (fun _ hw => ⟨hw.1.tick, hw.2⟩) (fun w hw => ?_) fun _ _ => trivial).onError
      fun _ _ hw => hw.2.1.grown
    obtain ⟨hw, hread⟩ := hw
    have hhead : Headed a.stack w₁ slice (content.length + value.length) newCap
        (w.store a.stack (slice.start + BYTEVEC_HEADER + content.length) value) := hw.store (by omega) (by omega)
    refine ⟨hhead.grown, ?_, ?_, hhead.cap, ?_, ?_, ?_⟩
    · rw [hhead.grown.live]
      exact List.mem_cons_self
    · rw [hhead.len, List.length_append]
    · rw [List.length_append]
      exact hlen
    · exact Nat.le_of_eq hslice.symm
    · rw [World.files_store_same, File.bytes_write, List.length_append, Mem.read_add,
        Mem.read_write_disjoint (.inl (Nat.le_refl _)), hread, Mem.read_write_eq _ _ rfl]

/-- A growth builds the new block, or leaves every block as it was. -/
theorem grow_spec (hb : ByteBlock (w₁.files a.stack) old content cap)
    (hlen : content.length + value.length ≤ newCap) :
    Prog.Spec (Grown a.stack [] w₁) (grow a .checked old content.length (content.length + value.length) newCap value)
      (fun slice w => Grown a.stack [slice] w₁ w ∧ ByteBlock (w.files a.stack) slice (content ++ value) newCap)
      (fun _ w => Kept a.stack w₁ w) fun _ => True := by
  have hsum : Sums.checked.size BYTEVEC_HEADER newCap = checkedAdd BYTEVEC_HEADER newCap overflowed := rfl
  unfold grow
  rw [hsum, checkedAdd]
  split
  · rename_i hsize
    rw [Prog.lift_ok, pure_bind]
    apply ((alloc_grown _ fun _ _ => trivial).onError fun _ _ he => Kept.of_grown he.2).bind
    intro slice
    apply Prog.Spec.assume fun _ hs => hs.1
    intro hslice
    have hbuild := build_spec hb hslice hlen (Nat.lt_of_le_of_lt (Nat.le_add_left ..) hsize)
    apply Prog.Spec.bind (Q := fun built w => Grown a.stack [slice] w₁ w ∧
      (built = .ok () → ByteBlock (w.files a.stack) slice (content ++ value) newCap))
    · apply Prog.Spec.attempt
      refine hbuild.weaken (fun _ hs => hs.2.2.2) (fun _ _ hs => ⟨hs.1, fun _ => hs.2⟩) (fun _ _ hs => ⟨hs, ?_⟩)
        fun _ hs => hs
      intro hno
      cases hno
    · intro built
      cases built with
      | ok u => exact Prog.Spec.pure fun _ hs => ⟨hs.1, hs.2 rfl⟩
      | error e =>
          have hfreed : Prog.Spec (Grown a.stack [slice] w₁) (Prog.attempt (deallocRange a slice))
              (fun _ w => Kept a.stack w₁ w) (fun _ w => Kept a.stack w₁ w) fun _ => True :=
            attempt_dealloc_rule (fun _ hw _ => Kept.of_released hw.tick)
              (fun _ hw => Kept.of_grown (hw.tick.handIn _ _)) fun _ _ => trivial
          apply (hfreed.weaken (fun _ hs => hs.1) (fun _ _ hs => hs) (fun _ _ hs => hs) fun _ hs => hs).bind
          intro _
          exact Prog.Spec.fail fun _ hs => hs
  · exact Prog.Spec.fail fun _ hs => Kept.of_grown hs

end Growth

/-! ### A push before it changes the handle -/

/-- The bytes of the elements. -/
def elemBytes (es : List UInt64) : List UInt8 := es.flatMap fun e => leBytes 8 e.toNat

theorem length_elemBytes (es : List UInt64) : (elemBytes es).length = es.length * 8 := by
  simp [elemBytes, List.length_flatMap]

theorem elemBytes_snoc (es : List UInt64) (x : UInt64) : elemBytes (es ++ [x]) = elemBytes es ++ leBytes 8 x.toNat := by
  simp [elemBytes]

/-- The field `loc`, in some other block, names the data block `r`. -/
structure Names (f : File) (loc r : Range) : Prop where
  home : ∃ b ∈ f.live, b ≠ r ∧ b.start ≤ loc.start ∧ loc.start + 16 ≤ b.stop
  start : f.bytes.word loc.start = r.start
  len : f.bytes.word (loc.start + 8) = r.len

/-- The file and the handle `v` agree on a vector of `es`. -/
structure Holds (v : BStackVec) (f : File) (es : List UInt64) : Prop where
  block : ∃ cap, ByteBlock f v.data (elemBytes es) cap
  field : ∀ loc ∈ v.writeback, Names f loc v.data

theorem Names.beside {k : Nat} {loc r : Range} {w w' : World} (h : Names (w.files k) loc r) (hw : Beside k r w w') :
    Names (w'.files k) loc r := by
  obtain ⟨⟨b, hb, hne, hlo, hhi⟩, hstart, hlen⟩ := h
  obtain ⟨hb', hbytes⟩ := hw b hb hne
  refine ⟨⟨b, hb', hne, hlo, hhi⟩, ?_, ?_⟩
  · rw [← hstart]
    exact Mem.word_congr fun x hx hx' => hbytes x (by omega) (by omega)
  · rw [← hlen]
    exact Mem.word_congr fun x hx hx' => hbytes x (by omega) (by omega)

theorem Kept.beside {k : Nat} {w w' : World} (h : Kept k w w') (r : Range) : Beside k r w w' := fun b hb _ => h b hb

theorem Holds.kept {k : Nat} {v : BStackVec} {w w' : World} {es : List UInt64} (h : Holds v (w.files k) es)
    (hw : Kept k w w') : Holds v (w'.files k) es := by
  obtain ⟨⟨cap, hb⟩, hfield⟩ := h
  obtain ⟨hlive, hbytes⟩ := hw v.data hb.live
  exact ⟨⟨cap, hb.congr hlive hbytes⟩, fun loc hloc => (hfield loc hloc).beside (hw.beside v.data)⟩

theorem Holds.live {v : BStackVec} {f : File} {es : List UInt64} (h : Holds v f es) : v.data ∈ f.live := by
  obtain ⟨⟨cap, hb⟩, -⟩ := h
  exact hb.live

theorem Holds.unique {v : BStackVec} {f : File} {es es' : List UInt64} (h : Holds v f es) (h' : Holds v f es') :
    es.length = es'.length := by
  obtain ⟨⟨cap, hb⟩, -⟩ := h
  obtain ⟨⟨cap', hb'⟩, -⟩ := h'
  have hlen := hb.lenWord.symm.trans hb'.lenWord
  rw [length_elemBytes, length_elemBytes] at hlen
  omega

section Push

variable {bv : ByteVec} {a : Allocator} {v : BStackVec} {w : World} {es : List UInt64} {x : UInt64}

theorem self_spec {I : World → Prop} {E : IoError → BStackVec × World → Prop} {C : BStackVec × World → Prop} :
    Prog.Spec (fun s => s.1 = v ∧ I s.2) self (fun u s => u = v ∧ s.1 = v ∧ I s.2) E C := by
  apply Prog.Spec.volatile
  · intro s u t hs ht
    cases ht
    exact ⟨hs.1, hs⟩
  · intro s e t hs ht
    cases ht

theorem readDesc_spec {loc : Range} (h : Names (w.files a.stack) loc v.data) :
    Prog.Spec (Grown a.stack [] w) (readDesc a.stack loc.start) (fun r w' => r = v.data ∧ Grown a.stack [] w w')
      (fun _ w' => Grown a.stack [] w w') fun _ => True := by
  obtain ⟨⟨b, hb, -, hlo, hhi⟩, hstart, hlen⟩ := h
  have hhead : (((w.files a.stack).bytes.read loc.start 16).drop 0).take 8 = (w.files a.stack).bytes.read loc.start 8 :=
    Mem.take_drop_read (by decide)
  have htail : (((w.files a.stack).bytes.read loc.start 16).drop 8).take 8 =
      (w.files a.stack).bytes.read (loc.start + 8) 8 := Mem.take_drop_read (by decide)
  rw [List.drop_zero] at hhead
  rw [List.take_of_length_le (by simp)] at htail
  unfold readDesc
  apply ((getInto_grown hb hlo hhi).onError fun _ _ he => he.2).bind_value
  rw [hhead, htail, ← Mem.word, ← Mem.word, hstart, hlen]
  exact Prog.Spec.pure fun _ hs => ⟨rfl, hs⟩

theorem reread_spec (h : Holds v (w.files a.stack) es) :
    Prog.Spec (fun s => s.1 = v ∧ Grown a.stack [] w s.2) (reread a) (fun _ s => s.1 = v ∧ Grown a.stack [] w s.2)
      (fun _ s => s.1 = v ∧ Grown a.stack [] w s.2) fun _ => True := by
  unfold reread
  apply self_spec.bind_value
  cases hloc : v.writeback with
  | none => exact Prog.Spec.pure fun _ hs => hs
  | some loc =>
      have hread := (readDesc_spec (h.field loc hloc)).onSnd (· = v)
      apply (hread.weaken (fun _ hs => hs) (fun _ _ hs => hs) (fun _ _ hs => hs) fun _ _ => trivial).bind
      intro data
      apply Prog.Spec.onFst
      rintro ⟨v', w'⟩ ⟨rfl, rfl, hw⟩
      exact ⟨rfl, hw⟩

/-- What a push has done once its element is in a block. -/
inductive PlacedAt (k : Nat) (v : BStackVec) (w : World) (es : List UInt64) (x : UInt64) : Placed → World → Prop
  | inPlace {data : Range} {w' : World} (holds : Holds { v with data } (w'.files k) (es ++ [x]))
      (freed : w'.freed = w.freed ++ if data = v.data then [] else [(k, v.data)]) :
      PlacedAt k v w es x (.inPlace data) w'
  | moved {data : Range} {cap : Nat} {w' : World} (hfield : v.writeback ≠ none) (hgrown : Grown k [data] w w')
      (hblock : ByteBlock (w'.files k) data (elemBytes (es ++ [x])) cap) : PlacedAt k v w es x (.moved data v.data) w'

/-- What a push leaves that fails before it has changed the handle: the vector, or nothing where its block was, if an
append has moved the bytes of a detached vector. -/
def Left (k : Nat) (v : BStackVec) (es : List UInt64) (w' : World) : Prop :=
  Holds v (w'.files k) es ∨ (v.writeback = none ∧ v.data ∉ (w'.files k).live)

theorem place_spec (hbv : ByteVecLaws bv a.stack) (h : Holds v (w.files a.stack) es) :
    Prog.Spec (Grown a.stack [] w) (place bv a .checked v (leBytes 8 x.toNat)) (PlacedAt a.stack v w es x)
      (fun _ w' => Left a.stack v es w') fun _ => True := by
  obtain ⟨cap, hb⟩ := h.block
  have hnow : ∀ w', Grown a.stack [] w w' → ByteBlock (w'.files a.stack) v.data (elemBytes es) cap := fun w' hw =>
    hb.congr (hw.mem_live hb.live) (hw.bytes _ hb.live)
  have hlen : Prog.Spec (Grown a.stack [] w) (bv.len v.data)
      (fun n w' => n = (elemBytes es).length ∧ Grown a.stack [] w w')
      (fun _ w' => Left a.stack v es w') fun _ => True := by
    intro w' hw
    obtain ⟨hgrown, hvalue⟩ := hbv.len (hnow w' hw)
    exact ⟨fun n hn => ⟨hvalue n hn, hw.trans hgrown⟩, fun _ _ => .inl (h.kept (.of_grown (hw.trans hgrown))),
      fun _ _ => trivial⟩
  have hcap : Prog.Spec (Grown a.stack [] w) (bv.capacity v.data)
      (fun n w' => n = cap ∧ Grown a.stack [] w w') (fun _ w' => Left a.stack v es w') fun _ => True := by
    intro w' hw
    obtain ⟨hgrown, hvalue⟩ := hbv.capacity (hnow w' hw)
    exact ⟨fun n hn => ⟨hvalue n hn, hw.trans hgrown⟩, fun _ _ => .inl (h.kept (.of_grown (hw.trans hgrown))),
      fun _ _ => trivial⟩
  unfold place headerWords
  simp only [bind_assoc, pure_bind]
  apply hlen.bind_value
  apply hcap.bind_value
  unfold checkedAdd
  split
  · rename_i hnew
    rw [Prog.lift_ok, pure_bind]
    split
    · rename_i hfits
      apply Prog.Spec.bind (Q := fun data w' => PlacedAt a.stack v w es x (.inPlace data) w')
      · intro w' hw
        have hbeside := hbv.beside (leBytes 8 x.toNat) (hnow w' hw)
        have hnames : ∀ loc ∈ v.writeback, Names (w'.files a.stack) loc v.data :=
          (h.kept (.of_grown hw)).field
        refine ⟨fun data hdata => ?_, fun e he => ?_, fun _ _ => trivial⟩
        · obtain ⟨⟨cap', hblock⟩, hstays, hfreed⟩ := hbv.appends (hnow w' hw) hdata
          rw [← elemBytes_snoc] at hblock
          rw [hw.freed] at hfreed
          refine .inPlace ⟨⟨cap', hblock⟩, fun loc hloc => ?_⟩ hfreed
          have hsame : data = v.data := hstays (hfits.resolve_right fun hnone => by simp [hnone] at hloc)
          rw [hsame]
          exact (hnames loc hloc).beside hbeside
        · rcases hbv.fails (hnow w' hw) he with hblock | ⟨hmore, hgone⟩
          · exact .inl ⟨⟨cap, hblock⟩, fun loc hloc => (hnames loc hloc).beside hbeside⟩
          · exact .inr ⟨hfits.resolve_left (Nat.not_le.mpr hmore), hgone⟩
      · exact fun _ => Prog.Spec.pure fun _ hs => hs
    · rename_i hfull
      obtain ⟨hfull, hfield⟩ := not_or.mp hfull
      apply ((grow_spec hb (Nat.le_max_right ..)).onError fun _ _ hw => .inl (h.kept hw)).bind
      intro slice
      refine Prog.Spec.pure fun _ hs => ?_
      obtain ⟨hgrown, hblock⟩ := hs
      rw [← elemBytes_snoc] at hblock
      exact .moved hfield hgrown hblock
  · exact Prog.Spec.fail fun _ hs => .inl (h.kept (.of_grown hs))

theorem stage_spec (hbv : ByteVecLaws bv a.stack) (h : Holds v (w.files a.stack) es) :
    Prog.Spec (fun s => s = (v, w)) (stage bv a (leBytes 8 x.toNat))
      (fun placed s => s.1 = v ∧ PlacedAt a.stack v w es x placed s.2)
      (fun _ s => s.1 = v ∧ Left a.stack v es s.2) fun _ => True := by
  unfold stage
  apply ((reread_spec h).weaken ?_ (fun _ _ hs => hs) (fun _ _ hs => ⟨hs.1, .inl (h.kept (.of_grown hs.2))⟩)
    fun _ hs => hs).bind
  · intro _
    apply self_spec.bind_value
    exact (place_spec hbv h).onSnd (· = v)
  · rintro s rfl
    exact ⟨rfl, .refl a.stack w⟩

/-! ### The commit -/

theorem persist_detached (h : v.writeback = none) : persist a (v, w) = ⟨.ok (), (v, w), []⟩ := by
  unfold persist
  have hself : self (v, w) = ⟨.ok v, (v, w), []⟩ := rfl
  rw [Prog.bind_of_ok hself, h]
  rfl

theorem persist_field {loc : Range} (h : v.writeback = some loc) (hin : loc.start + 16 ≤ (w.files a.stack).len) :
    persist a (v, w) = if w.Faulty then ⟨.error ioFault, (v, w.tick), [(v, w)]⟩
      else ⟨.ok (), (v, w.tick.store a.stack loc.start v.descriptor), [(v, w)]⟩ := by
  unfold persist
  have hself : self (v, w) = ⟨.ok v, (v, w), []⟩ := rfl
  have hdesc : loc.start + v.descriptor.length ≤ (w.files a.stack).len := by
    simp only [descriptor, List.length_append, length_leBytes]
    exact hin
  rw [Prog.bind_of_ok hself, h]
  simp only [Prog.onSnd, set, Prog.durable_apply, if_pos hdesc, Run.after]
  split <;> rfl

/-- Once the field names the block of the handle, file and handle agree. -/
theorem Holds.persisted {loc b : Range} {f : File} (hblock : ∃ cap, ByteBlock f v.data (elemBytes es) cap)
    (hloc : v.writeback = some loc) (hb : b ∈ f.live) (hne : b ≠ v.data) (hlo : b.start ≤ loc.start)
    (hhi : loc.start + 16 ≤ b.stop) : Holds v (f.write loc.start v.descriptor) es := by
  obtain ⟨cap, hblock⟩ := hblock
  have hapart := (apart_of_mem f.apart hb hblock.live hne).2
  have hlen : v.descriptor.length = 16 := by simp [descriptor]
  have hstop : v.data.stop = v.data.start + v.data.len := rfl
  have hinside := (f.inside _ hblock.live).2
  have haddr := f.addressable
  have hstart : v.data.start < 2 ^ 64 := by omega
  have hsize : v.data.len < 2 ^ 64 := by omega
  have hword := fun i (hi : i < 2) => word_header f.bytes loc.start hstart hsize hi
  refine ⟨⟨cap, hblock.congr hblock.live fun x hx hx' => ?_⟩, fun l hl => ?_⟩
  · rw [File.bytes_write]
    rcases hapart with hapart | hapart
    · exact Mem.write_of_ge (by omega)
    · exact Mem.write_of_lt (by omega)
  · obtain rfl : loc = l := Option.some.inj (hloc.symm.trans hl)
    exact ⟨⟨b, hb, hne, hlo, hhi⟩, hword 0 (by decide), hword 1 (by decide)⟩

theorem onSnd_deallocRange (v : BStackVec) {r : Range} (h : r ∈ (w.files a.stack).live) :
    Prog.onSnd (deallocRange a r) (v, w) = if w.Faulty then ⟨.error ioFault, (v, w.tick.handIn a.stack r), [(v, w)]⟩
      else ⟨.ok (), (v, w.tick.release a.stack r), [(v, w)]⟩ := by
  simp only [Prog.onSnd, deallocRange_if h]
  split <;> rfl

theorem commit_inPlace (data : Range) : commit a (.inPlace data) (v, w) = persist a ({ v with data }, w) := by
  unfold commit
  have hset : (Prog.onFst fun v : BStackVec => { v with data }) (v, w) =
      (⟨.ok (), ({ v with data }, w), []⟩ : Run IoError (BStackVec × World) Unit) := rfl
  rw [Placed.data, Prog.bind_of_ok hset, Run.after_nil, bind_pure_unit]

theorem commit_moved (data old : Range) : commit a (.moved data old) (v, w) =
    (persist a >>= fun _ => Prog.onSnd (deallocRange a old)) ({ v with data }, w) := by
  unfold commit
  have hset : (Prog.onFst fun v : BStackVec => { v with data }) (v, w) =
      (⟨.ok (), ({ v with data }, w), []⟩ : Run IoError (BStackVec × World) Unit) := rfl
  rw [Placed.data, Prog.bind_of_ok hset, Run.after_nil]

theorem commit_inPlace_cases {data : Range} (h : Holds { v with data } (w.files a.stack) es) :
    (v.writeback ≠ none ∧ w.Faulty ∧
      ∃ cs, commit a (.inPlace data) (v, w) = ⟨.error ioFault, ({ v with data }, w.tick), cs⟩) ∨
    (¬ (v.writeback ≠ none ∧ w.Faulty) ∧ ∃ w' cs,
      commit a (.inPlace data) (v, w) = ⟨.ok (), ({ v with data }, w'), cs⟩ ∧
        Holds { v with data } (w'.files a.stack) es ∧ w'.freed = w.freed) := by
  obtain ⟨old, field⟩ := v
  rw [commit_inPlace]
  cases field with
  | none => exact .inr ⟨by simp, w, [], persist_detached rfl, h, rfl⟩
  | some loc =>
      obtain ⟨b, hb, hne, hlo, hhi⟩ := (h.field loc rfl).home
      have hin := Nat.le_trans hhi ((w.files a.stack).inside b hb).2
      have hrun := persist_field (v := ⟨data, some loc⟩) rfl hin
      by_cases hf : w.Faulty
      · rw [if_pos hf] at hrun
        exact .inl ⟨by simp, hf, _, hrun⟩
      · rw [if_neg hf] at hrun
        refine .inr ⟨by simp [hf], _, _, hrun, ?_, rfl⟩
        rw [World.files_store_same]
        exact Holds.persisted h.block rfl hb hne hlo hhi

theorem commit_moved_cases {data loc : Range} {cap : Nat} {content : List UInt64} {w₁ : World}
    (h : Holds v (w₁.files a.stack) content) (hloc : v.writeback = some loc) (hgrown : Grown a.stack [data] w₁ w)
    (hblock : ByteBlock (w.files a.stack) data (elemBytes es) cap) (hes : content.length ≠ es.length) :
    (¬ w.Works 2 ∧ ∃ w' cs, commit a (.moved data v.data) (v, w) = ⟨.error ioFault, ({ v with data }, w'), cs⟩ ∧
      ¬ Holds { v with data } (w'.files a.stack) content) ∨
    (w.Works 2 ∧ ∃ w' cs, commit a (.moved data v.data) (v, w) = ⟨.ok (), ({ v with data }, w'), cs⟩ ∧
      Holds { v with data } (w'.files a.stack) es ∧ data ≠ v.data ∧ w'.freed = w.freed ++ [(a.stack, v.data)]) := by
  obtain ⟨old, field⟩ := v
  obtain rfl : field = some loc := hloc
  obtain ⟨capOld, hold⟩ := h.block
  have hnames := h.field loc rfl
  obtain ⟨b, hb, hne, hlo, hhi⟩ := hnames.home
  have hlive : (w.files a.stack).live = data :: (w₁.files a.stack).live := hgrown.live
  have hpair := (w.files a.stack).apart
  rw [hlive] at hpair
  have hfresh : ∀ r ∈ (w₁.files a.stack).live, data ≠ r := fun r hr => (List.rel_of_pairwise_cons hpair hr).1
  have hdata : data ≠ old := hfresh old hold.live
  have hin := Nat.le_trans hhi ((w.files a.stack).inside b (hgrown.mem_live hb)).2
  have hrun := persist_field (v := ⟨data, some loc⟩) rfl hin
  rw [commit_moved]
  by_cases hf : w.Faulty
  · rw [if_pos hf] at hrun
    refine .inl ⟨fun hworks => (World.works_succ.mp hworks).1 hf, _, _, Prog.bind_of_error hrun, fun hsame => ?_⟩
    have hthere := hnames.beside ((Kept.of_grown hgrown).beside old)
    have hclaimed := hsame.field loc rfl
    obtain ⟨start, len⟩ := data
    obtain ⟨start', len'⟩ := old
    obtain rfl : start = start' := hclaimed.start.symm.trans hthere.start
    obtain rfl : len = len' := hclaimed.len.symm.trans hthere.len
    exact hdata rfl
  · rw [if_neg hf] at hrun
    have hold' : old ∈ ((w.tick.store a.stack loc.start (descriptor ⟨data, some loc⟩)).files a.stack).live := by
      rw [World.live_store]
      exact hgrown.mem_live hold.live
    have hdealloc := onSnd_deallocRange (⟨data, some loc⟩ : BStackVec) hold'
    have hstored : (w.tick.store a.stack loc.start (descriptor ⟨data, some loc⟩)).Faulty ↔ w.tick.Faulty := Iff.rfl
    rw [Prog.bind_of_ok hrun]
    by_cases hf' : w.tick.Faulty
    · rw [if_pos (hstored.mpr hf')] at hdealloc
      rw [hdealloc]
      refine .inl ⟨fun hworks => World.works_one.mp (World.works_succ.mp hworks).2 hf', _, _, rfl, fun hsame => ?_⟩
      rw [World.files_handIn, World.files_tick, World.files_store_same] at hsame
      exact hes (hsame.unique (Holds.persisted ⟨cap, hblock⟩ rfl (hgrown.mem_live hb) (hfresh b hb).symm hlo hhi))
    · rw [if_neg fun hf'' => hf' (hstored.mp hf'')] at hdealloc
      rw [hdealloc]
      refine .inr ⟨World.works_succ.mpr ⟨hf, World.works_one.mpr hf'⟩, _, _, rfl, ?_, hdata, rfl⟩
      have hkeep : ∀ r ∈ (w.files a.stack).live, r ≠ old → r ∈ ((w.files a.stack).free old).live := fun r hr hr' =>
        (List.mem_erase_of_ne hr').mpr hr
      have hfiles : ((w.tick.store a.stack loc.start (descriptor ⟨data,
        some loc⟩)).tick.release a.stack old).files a.stack =
          ((w.files a.stack).free old).write loc.start (descriptor ⟨data, some loc⟩) := by
        rw [World.files_release_same, World.files_tick, World.files_store_same]
        rfl
      rw [hfiles]
      exact Holds.persisted ⟨cap, hblock.congr (hkeep _ hblock.live hdata) fun _ _ _ => rfl⟩ rfl
        (hkeep b (hgrown.mem_live hb) hne) (hfresh b hb).symm hlo hhi

/-! ### The steps behind the commit -/

/-- With the outcome and the state of a push that has not changed the handle yet: a step fails that the push does not
undo. That is the write of the field, or the free of the block that was replaced, or, in an append, a step behind the
move of the bytes. -/
def Late (a : Allocator) (v : BStackVec) : Except IoError Placed → BStackVec × World → Prop
  | .error e, s => e ≠ overflowed ∧ v.data ∉ (s.2.files a.stack).live
  | .ok (.inPlace _), s => v.writeback ≠ none ∧ s.2.Faulty
  | .ok (.moved _ _), s => v.writeback ≠ none ∧ ¬ s.2.Works 2

instance (a : Allocator) (v : BStackVec) : ∀ out s, Decidable (Late a v out s)
  | .error _, _ => inferInstanceAs (Decidable (_ ∧ _))
  | .ok (.inPlace _), _ => inferInstanceAs (Decidable (_ ∧ _))
  | .ok (.moved _ _), _ => inferInstanceAs (Decidable (_ ∧ _))

/-- A push of `off` fails in a step that it does not undo. -/
def FailsBehind (bv : ByteVec) (a : Allocator) (v : BStackVec) (w : World) (off : UInt64) : Prop :=
  Late a v (stage bv a (leBytes 8 off.toNat) (v, w)).out (stage bv a (leBytes 8 off.toNat) (v, w)).final

instance (bv : ByteVec) (a : Allocator) (v : BStackVec) (w : World) (off : UInt64) :
    Decidable (FailsBehind bv a v w off) := inferInstanceAs (Decidable (Late _ _ _ _))

/-- A push of `off` is exact: an error leaves the elements, in the file and in the handle, and hands `back` to
the caller, and a return adds `off` and frees the block it replaced, if it replaced it. -/
def Exact {β : Type} (a : Allocator) (push : VecIo (Except (IoError × β) Unit)) (v : BStackVec) (w : World)
    (es : List UInt64) (off : UInt64) (back : β) : Prop :=
  let r := push (v, w)
  match r.out with
  | .ok (.error (_, returned)) => returned = back ∧ Holds r.final.1 (r.final.2.files a.stack) es
  | .ok (.ok ()) => Holds r.final.1 (r.final.2.files a.stack) (es ++ [off]) ∧
      r.final.2.freed = w.freed ++ if r.final.1.data = v.data then [] else [(a.stack, v.data)]
  | .error e => e = overflowed

/-- Exactness read off the push itself. -/
theorem exact_iff_push {β : Type} {off : UInt64} {back : β} {out : Except IoError Unit} {s : BStackVec × World}
    {cs : List (BStackVec × World)} (hpush : push bv a (leBytes 8 off.toNat) (v, w) = ⟨out, s, cs⟩) :
    Exact a (pushOrReturn bv a off back) v w es off back ↔
      match out with
      | .error e => e = overflowed ∨ Holds s.1 (s.2.files a.stack) es
      | .ok () => Holds s.1 (s.2.files a.stack) (es ++ [off]) ∧
          s.2.freed = w.freed ++ if s.1.data = v.data then [] else [(a.stack, v.data)] := by
  unfold Exact pushOrReturn
  have hrun : Prog.attempt (push bv a (leBytes 8 off.toNat)) (v, w) = ⟨.ok out, s, cs⟩ := by
    rw [Prog.attempt_apply, hpush]
  rw [Prog.bind_of_ok hrun]
  cases out with
  | ok u => exact Iff.rfl
  | error e =>
      by_cases he : e = overflowed
      · simp only [if_pos he]
        exact ⟨fun _ => .inl he, fun _ => he⟩
      · simp only [if_neg he]
        exact ⟨fun h => .inr h.2, fun h => ⟨rfl, h.resolve_left he⟩⟩

theorem pushOrReturn_exact_iff {β : Type} (hbv : ByteVecLaws bv a.stack) (h : Holds v (w.files a.stack) es)
    {off : UInt64} {back : β} :
    Exact a (pushOrReturn bv a off back) v w es off back ↔ ¬ FailsBehind bv a v w off := by
  obtain ⟨hok, herr, -⟩ := stage_spec (x := off) hbv h (v, w) rfl
  have hlonger : es.length ≠ (es ++ [off]).length := by simp
  unfold FailsBehind
  cases hstage : stage bv a (leBytes 8 off.toNat) (v, w) with
  | mk out s cs =>
    rw [hstage] at hok herr
    cases out with
    | error e =>
        obtain ⟨hv, hkept⟩ := herr e rfl
        have hpush : push bv a (leBytes 8 off.toNat) (v, w) = ⟨.error e, s, cs⟩ := Prog.bind_of_error hstage
        rw [exact_iff_push hpush, hv]
        rcases hkept with hheld | ⟨-, hgone⟩
        · exact ⟨fun _ hno => hno.2 hheld.live, fun _ => .inr hheld⟩
        · refine ⟨fun hexact hno => hexact.elim hno.1 fun hheld => hgone hheld.live, fun hno => .inl ?_⟩
          by_contra he
          exact hno ⟨he, hgone⟩
    | ok placed =>
        obtain ⟨hv, hplaced⟩ := hok placed rfl
        obtain ⟨v', w'⟩ := s
        obtain rfl : v' = v := hv
        have hpush : push bv a (leBytes 8 off.toNat) (v', w) = (commit a placed (v', w')).after cs :=
          Prog.bind_of_ok hstage
        cases hplaced with
        | @inPlace data _ holds freed =>
            rcases commit_inPlace_cases holds with ⟨hfield, hf, cs', hrun⟩ | ⟨hworks, w'', cs', hrun, hheld, hfreed⟩
            · rw [hrun] at hpush
              rw [exact_iff_push hpush]
              simp only [Late, hfield, hf, ne_eq, not_false_eq_true, and_self, not_true_eq_false, iff_false, not_or]
              exact ⟨by decide, fun hsame => hlonger (hsame.unique holds)⟩
            · rw [hrun] at hpush
              rw [exact_iff_push hpush]
              exact ⟨fun _ => hworks, fun _ => ⟨hheld, hfreed.trans freed⟩⟩
        | @moved data cap _ hfield hgrown hblock =>
            obtain ⟨loc, hloc⟩ := Option.ne_none_iff_exists'.mp hfield
            rcases commit_moved_cases h hloc hgrown hblock hlonger with
              ⟨hfails, w'', cs', hrun, hnot⟩ | ⟨hworks, w'', cs', hrun, hheld, hne, hfreed⟩
            · rw [hrun] at hpush
              rw [exact_iff_push hpush]
              simp only [Late, hfield, hfails, ne_eq, not_false_eq_true, and_self, not_true_eq_false, iff_false, not_or]
              exact ⟨by decide, hnot⟩
            · rw [hrun] at hpush
              rw [exact_iff_push hpush]
              refine ⟨fun _ hno => hno.2 hworks, fun _ => ⟨hheld, ?_⟩⟩
              rw [if_neg hne, hfreed, hgrown.freed]

/-- A push of an owned, strong or weak element is exact unless the write of the field, or the free of the block
that was replaced, fails behind the commit. -/
theorem push_exact_iff (hbv : ByteVecLaws bv a.stack) (h : Holds v (w.files a.stack) es) :
    (∀ child : Owned, Exact a (pushOwned bv a child) v w es child.off child ↔ ¬ FailsBehind bv a v w child.off) ∧
    (∀ elem : Rc, Exact a (pushStrong bv a elem) v w es elem.data elem ↔ ¬ FailsBehind bv a v w elem.data) ∧
    ∀ elem : Weak, Exact a (pushWeak bv a elem) v w es elem.ctrl elem ↔ ¬ FailsBehind bv a v w elem.ctrl :=
  ⟨fun _ => pushOrReturn_exact_iff hbv h, fun _ => pushOrReturn_exact_iff hbv h,
    fun _ => pushOrReturn_exact_iff hbv h⟩

end Push

/-! ### Byte vectors that move -/

section Moving

variable {a : Allocator} {k : Nat} {r r' : Range} {content bytes : List UInt8} {cap newCap : Nat} {w w' : World}

def appendWithin (k : Nat) (r : Range) (len : Nat) (bytes : List UInt8) : Io Unit := do
  set k (r.start + BYTEVEC_HEADER + len) bytes
  set k r.start (leBytes 8 (len + bytes.length))

/-- A reallocation: the bytes move, the old block is freed, and the new one is told its capacity. -/
def relocate (a : Allocator) (r : Range) (len newCap : Nat) : Io Range := do
  let slice ← alloc a (BYTEVEC_HEADER + newCap)
  copy a.stack r.start slice.start (BYTEVEC_HEADER + len)
  deallocRange a r
  set a.stack (slice.start + 8) (leBytes 8 newCap)
  pure slice

/-- Byte vectors that append where there is room, and move where there is none. -/
def moving (a : Allocator) : ByteVec where
  len r := readU64 a.stack r.start
  capacity r := readU64 a.stack (r.start + 8)
  extendFromSlice r bytes := do
    let len ← readU64 a.stack r.start
    let cap ← readU64 a.stack (r.start + 8)
    let r' ← if len + bytes.length ≤ cap then pure r else relocate a r len (len + bytes.length)
    appendWithin a.stack r' len bytes
    pure r'

/-- The bytes of the block `r` of `w` are in the block `r'`: the same one, or a new one for which `r` was freed. -/
structure Taken (k : Nat) (r r' : Range) (w w' : World) : Prop where
  live : r' ∈ (w'.files k).live
  beside : Beside k r w w'
  fresh : r' = r ∨ r' ∉ (w.files k).live
  gone : r' ≠ r → r ∉ (w'.files k).live
  freed : w'.freed = w.freed ++ if r' = r then [] else [(k, r)]

/-- While an append runs. -/
structure Appending (k : Nat) (r r' : Range) (content : List UInt8) (cap : Nat) (w w' : World) : Prop extends
    Taken k r r' w w' where
  block : ByteBlock (w'.files k) r' content cap

theorem Taken.tick (h : Taken k r r' w w') : Taken k r r' w w'.tick := ⟨h.live, h.beside, h.fresh, h.gone, h.freed⟩

theorem Appending.tick (h : Appending k r r' content cap w w') : Appending k r r' content cap w w'.tick :=
  ⟨h.toTaken.tick, h.block⟩

theorem Taken.store {off : Nat} {data : List UInt8} (h : Taken k r r' w w') (hlo : r'.start ≤ off)
    (hhi : off + data.length ≤ r'.stop) : Taken k r r' w (w'.store k off data) := by
  refine ⟨by rw [World.live_store]; exact h.live, fun b hb hne => ?_, h.fresh, fun hr => ?_, h.freed⟩
  · obtain ⟨hlive, hbytes⟩ := h.beside b hb hne
    have hother : r' ≠ b := by
      rintro rfl
      exact h.fresh.elim hne fun hfresh => hfresh hb
    refine ⟨by rwa [World.live_store], fun x hx hx' => ?_⟩
    have hapart := (apart_of_mem (w'.files k).apart hlive h.live hother.symm).2
    rw [World.files_store_same, File.bytes_write, ← hbytes x hx hx']
    rcases hapart with hapart | hapart
    · exact Mem.write_of_lt (by omega)
    · exact Mem.write_of_ge (by omega)
  · rw [World.live_store]
    exact h.gone hr

theorem Appending.tail (h : Appending k r r' content cap w w') (hfits : content.length + bytes.length ≤ cap) :
    Appending k r r' content cap w (w'.store k (r'.start + BYTEVEC_HEADER + content.length) bytes) ∧
      ((w'.store k (r'.start + BYTEVEC_HEADER + content.length) bytes).files k).bytes.read
        (r'.start + BYTEVEC_HEADER + content.length) bytes.length = bytes := by
  obtain ⟨htaken, hb⟩ := h
  have hroom := hb.room
  have hstop : r'.stop = r'.start + r'.len := rfl
  simp only [BYTEVEC_HEADER] at hroom ⊢
  refine ⟨⟨htaken.store (by omega) (by omega),
    by rw [World.live_store]; exact hb.live, ?_, ?_, hb.fits, hb.room, ?_⟩, ?_⟩
  · rw [World.files_store_same, File.bytes_write, Mem.word_write_disjoint (.inl (by omega)), hb.lenWord]
  · rw [World.files_store_same, File.bytes_write, Mem.word_write_disjoint (.inl (by omega)), hb.capWord]
  · have hread := hb.read
    simp only [BYTEVEC_HEADER] at hread ⊢
    rw [World.files_store_same, File.bytes_write, Mem.read_write_disjoint (.inl (Nat.le_refl _)), hread]
  · rw [World.files_store_same, File.bytes_write, Mem.read_write_eq _ _ rfl]

theorem Appending.lengthen (h : Appending k r r' content cap w w') (hfits : content.length + bytes.length ≤ cap)
    (htail : (w'.files k).bytes.read (r'.start + BYTEVEC_HEADER + content.length) bytes.length = bytes) :
    Appending k r r' (content ++ bytes) cap w (w'.store k r'.start (leBytes 8 (content.length + bytes.length))) := by
  obtain ⟨htaken, hb⟩ := h
  have hroom := hb.room
  have hstop : r'.stop = r'.start + r'.len := rfl
  have hinside := ((w'.files k).inside r' hb.live).2
  have haddr := (w'.files k).addressable
  have hread := hb.read
  simp only [BYTEVEC_HEADER] at hroom htail hread
  refine ⟨htaken.store (Nat.le_refl _) (by rw [length_leBytes]; omega),
    by rw [World.live_store]; exact hb.live, ?_, ?_, by rwa [List.length_append], hb.room, ?_⟩
  · rw [World.files_store_same, File.bytes_write, Mem.word_write_self (by omega), List.length_append]
  · rw [World.files_store_same, File.bytes_write, Mem.word_write_disjoint (.inr (by simp)), hb.capWord]
  · have hbehind : r'.start + (leBytes 8 (content.length + bytes.length)).length ≤ r'.start + 16 := by
      rw [length_leBytes]
      omega
    simp only [BYTEVEC_HEADER]
    rw [World.files_store_same, File.bytes_write, List.length_append, Mem.read_write_disjoint (.inr hbehind),
      Mem.read_add, hread, htail]

theorem appendWithin_spec (hfits : content.length + bytes.length ≤ cap) :
    Prog.Spec (Appending k r r' content cap w) (appendWithin k r' content.length bytes)
      (fun _ w' => Appending k r r' (content ++ bytes) cap w w') (fun _ w' => Appending k r r' content cap w w')
      fun _ => True := by
  have htail : Prog.Spec (Appending k r r' content cap w) (set k (r'.start + BYTEVEC_HEADER + content.length) bytes)
      (fun _ w' => Appending k r r' content cap w w' ∧
        (w'.files k).bytes.read (r'.start + BYTEVEC_HEADER + content.length) bytes.length = bytes)
      (fun _ w' => Appending k r r' content cap w w') fun _ => True :=
    (set_step (fun _ hw => hw.tick) (fun _ hw => hw.tail hfits) fun _ _ => trivial).onError fun _ _ hw => hw.2
  apply htail.bind
  intro _
  exact (set_step (fun _ hw => ⟨hw.1.tick, hw.2⟩) (fun _ hw => hw.1.lengthen hfits hw.2) fun _ _ => trivial).onError
    fun _ _ hw => hw.2.1

/-! ### A reallocation -/

/-- The block `r` of `w` was copied to the new block `slice`. -/
structure Copied (k : Nat) (r slice : Range) (content : List UInt8) (w w' : World) : Prop where
  grown : Grown k [slice] w w'
  lenWord : (w'.files k).bytes.word slice.start = content.length
  read : (w'.files k).bytes.read (slice.start + BYTEVEC_HEADER) content.length = content

theorem Grown.copied {slice : Range} (hb : ByteBlock (w.files k) r content cap) (h : Grown k [slice] w w')
    (hroom : BYTEVEC_HEADER + content.length ≤ slice.len) : Copied k r slice content w
      (w'.store k slice.start ((w'.files k).bytes.read r.start (BYTEVEC_HEADER + content.length))) := by
  have holdroom := hb.room
  have holdfits := hb.fits
  have holdstop : r.stop = r.start + r.len := rfl
  have hstop : slice.stop = slice.start + slice.len := rfl
  have hsame : (w'.files k).bytes.read r.start (BYTEVEC_HEADER + content.length) =
      (w.files k).bytes.read r.start (BYTEVEC_HEADER + content.length) :=
    h.read_eq hb.live (Nat.le_refl _) (by omega)
  rw [hsame]
  refine ⟨h.store_new (Nat.le_refl _) (by rw [Mem.length_read]; omega), ?_, ?_⟩
  · have hword := Mem.read_write_window (w'.files k).bytes slice.start
      ((w.files k).bytes.read r.start (BYTEVEC_HEADER + content.length)) (i := 0) (n := 8)
      (by simp only [Mem.length_read, BYTEVEC_HEADER]; omega)
    rw [World.files_store_same, File.bytes_write, Mem.word]
    rw [Nat.add_zero, Mem.take_drop_read (by simp only [BYTEVEC_HEADER]; omega), Nat.add_zero] at hword
    rw [hword, ← Mem.word, hb.lenWord]
  · have hread := Mem.read_write_window (w'.files k).bytes slice.start
      ((w.files k).bytes.read r.start (BYTEVEC_HEADER + content.length)) (i := BYTEVEC_HEADER) (n := content.length)
      (Nat.le_of_eq (Mem.length_read ..).symm)
    rw [Mem.take_drop_read (Nat.le_refl _)] at hread
    rw [World.files_store_same, File.bytes_write, hread, hb.read]

theorem Copied.taken {slice : Range} (hlive : r ∈ (w.files k).live) (h : Copied k r slice content w w') :
    Taken k r slice w (w'.release k r) ∧ slice ≠ r := by
  have hlist : (w'.files k).live = slice :: (w.files k).live := h.grown.live
  have hpair := (w'.files k).apart
  rw [hlist] at hpair
  have hfresh : ∀ b ∈ (w.files k).live, slice ≠ b := fun b hb => (List.rel_of_pairwise_cons hpair hb).1
  have hne := hfresh r hlive
  refine ⟨⟨?_, fun b hb hbr => ⟨?_, fun x hx hx' => ?_⟩, .inr fun hmem => hfresh _ hmem rfl, fun _ => ?_, ?_⟩, hne⟩
  · rw [World.files_release_same, File.live_free, hlist]
    exact (List.mem_erase_of_ne hne).mpr List.mem_cons_self
  · rw [World.files_release_same, File.live_free]
    exact (List.mem_erase_of_ne hbr).mpr (h.grown.mem_live hb)
  · rw [World.files_release_same, File.bytes_free]
    exact h.grown.bytes b hb x hx hx'
  · exact World.not_mem_live_release
  · rw [World.freed_release, h.grown.freed, if_neg hne]

/-- What an append leaves when it fails. -/
def Behind (k : Nat) (r : Range) (content : List UInt8) (cap : Nat) (w w' : World) : Prop :=
  Beside k r w w' ∧ (ByteBlock (w'.files k) r content cap ∨ r ∉ (w'.files k).live)

theorem Behind.of_grown {rs : List Range} (hb : ByteBlock (w.files k) r content cap) (h : Grown k rs w w') :
    Behind k r content cap w w' :=
  ⟨(Kept.of_grown h).beside r, .inl (hb.congr (h.mem_live hb.live) (h.bytes r hb.live))⟩

theorem Taken.behind (h : Taken k r r' w w') (hne : r' ≠ r) : Behind k r content cap w w' :=
  ⟨h.beside, .inr (h.gone hne)⟩

theorem relocate_spec (hb : ByteBlock (w.files a.stack) r content cap) (hfits : content.length ≤ newCap) :
    Prog.Spec (Grown a.stack [] w) (relocate a r content.length newCap)
      (fun r' w' => r' ≠ r ∧ Appending a.stack r r' content newCap w w')
      (fun _ w' => Behind a.stack r content cap w w') fun _ => True := by
  unfold relocate
  apply ((alloc_grown _ fun _ _ => trivial).onError fun _ _ he => Behind.of_grown hb he.2).bind
  intro slice
  apply Prog.Spec.given
  intro hslice
  apply Prog.Spec.given
  intro hstart
  apply Prog.Spec.given
  intro hend
  have hstop : slice.stop = slice.start + slice.len := rfl
  have hcopy : Prog.Spec (Grown a.stack [slice] w) (copy a.stack r.start slice.start (BYTEVEC_HEADER + content.length))
      (fun _ w' => Copied a.stack r slice content w w') (fun _ w' => Behind a.stack r content cap w w')
      fun _ => True :=
    (copy_step (fun _ hw => hw.tick) (fun _ hw => Grown.copied hb hw (by omega)) fun _ _ => trivial).onError
      fun _ _ hw => Behind.of_grown hb hw.2
  apply hcopy.bind
  intro _
  apply Prog.Spec.bind (Q := fun _ w' => slice ≠ r ∧ Taken a.stack r slice w w' ∧
    (w'.files a.stack).bytes.word slice.start = content.length ∧
    (w'.files a.stack).bytes.read (slice.start + BYTEVEC_HEADER) content.length = content)
  · refine dealloc_rule (fun w' hw => hw.grown.mem_live hb.live) (fun w' hw => ?_)
      (fun w' hw _ => Behind.of_grown hb (hw.grown.tick.handIn _ _)) fun _ _ => trivial
    have hcopied : Copied a.stack r slice content w w'.tick := ⟨hw.grown.tick, hw.lenWord, hw.read⟩
    obtain ⟨htaken, hne⟩ := hcopied.taken hb.live
    refine ⟨hne, htaken, ?_, ?_⟩
    · rw [World.files_release_same, File.bytes_free]
      exact hw.lenWord
    · rw [World.files_release_same, File.bytes_free]
      exact hw.read
  · intro _
    apply Prog.Spec.given
    intro hne
    apply Prog.Spec.bind (Q := fun _ w' => Appending a.stack r slice content newCap w w')
    · refine (set_step (fun _ hw => ⟨hw.1.tick, hw.2⟩) (fun w' hw => ?_) fun _ _ => trivial).onError
        fun _ _ hw => hw.2.1.behind hne
      obtain ⟨htaken, hword, hread⟩ := hw
      simp only [BYTEVEC_HEADER] at hslice hread
      refine ⟨htaken.store (by omega) (by rw [length_leBytes]; omega), by rw [World.live_store]; exact htaken.live, ?_,
        ?_, hfits, by simp only [BYTEVEC_HEADER]; omega, ?_⟩
      · rw [World.files_store_same, File.bytes_write, Mem.word_write_disjoint (.inl (Nat.le_refl _)), hword]
      · rw [World.files_store_same, File.bytes_write, Mem.word_write_self (by omega)]
      · simp only [BYTEVEC_HEADER]
        rw [World.files_store_same, File.bytes_write,
          Mem.read_write_disjoint (.inr (Nat.le_of_eq (by rw [length_leBytes]))), hread]
    · exact fun _ => Prog.Spec.pure fun _ hw => ⟨hne, hw⟩

theorem Appending.of_grown (hb : ByteBlock (w.files k) r content cap) (h : Grown k [] w w') :
    Appending k r r content cap w w' := by
  have hblock := hb.congr (h.mem_live hb.live) (h.bytes r hb.live)
  refine ⟨⟨hblock.live, (Kept.of_grown h).beside r, .inl rfl, fun hne => absurd rfl hne, ?_⟩, hblock⟩
  rw [if_pos rfl, List.append_nil, h.freed]

theorem len_grown (hb : ByteBlock (w.files k) r content cap) : Prog.Spec (Grown k [] w) (readU64 k r.start)
    (fun n w' => n = content.length ∧ Grown k [] w w') (fun _ w' => Grown k [] w w') fun _ => True := by
  have hroom := hb.room
  simp only [BYTEVEC_HEADER] at hroom
  refine (readU64_grown hb.live (Nat.le_refl _) ?_).weaken (fun _ h => h) (fun _ _ h => ?_) (fun _ _ h => h.2)
    fun _ h => h
  · show r.start + 8 ≤ r.start + r.len
    omega
  · exact ⟨h.1.trans hb.lenWord, h.2⟩

theorem capacity_grown (hb : ByteBlock (w.files k) r content cap) : Prog.Spec (Grown k [] w) (readU64 k (r.start + 8))
    (fun n w' => n = cap ∧ Grown k [] w w') (fun _ w' => Grown k [] w w') fun _ => True := by
  have hroom := hb.room
  simp only [BYTEVEC_HEADER] at hroom
  refine (readU64_grown hb.live (Nat.le_add_right _ 8) ?_).weaken (fun _ h => h) (fun _ _ h => ?_) (fun _ _ h => h.2)
    fun _ h => h
  · show r.start + 8 + 8 ≤ r.start + r.len
    omega
  · exact ⟨h.1.trans hb.capWord, h.2⟩

theorem moving_appends (bytes : List UInt8) (hb : ByteBlock (w.files a.stack) r content cap) :
    Prog.Spec (Grown a.stack [] w) ((moving a).extendFromSlice r bytes)
      (fun r' w' => (content.length + bytes.length ≤ cap → r' = r) ∧
        ∃ cap', Appending a.stack r r' (content ++ bytes) cap' w w')
      (fun _ w' => Beside a.stack r w w' ∧ (ByteBlock (w'.files a.stack) r content cap ∨
        (cap < content.length + bytes.length ∧ r ∉ (w'.files a.stack).live))) fun _ => True := by
  have hgrown : ∀ e : IoError, ∀ w', Grown a.stack [] w w' → Beside a.stack r w w' ∧
      (ByteBlock (w'.files a.stack) r content cap ∨
        (cap < content.length + bytes.length ∧ r ∉ (w'.files a.stack).live)) := fun _ w' hw =>
    ⟨(Appending.of_grown hb hw).beside, .inl (Appending.of_grown hb hw).block⟩
  apply ((len_grown hb).onError hgrown).bind_value
  apply ((capacity_grown hb).onError hgrown).bind_value
  by_cases hfits : content.length + bytes.length ≤ cap
  · rw [if_pos hfits, pure_bind]
    apply (((appendWithin_spec hfits).weaken (fun _ hw => Appending.of_grown hb hw) (fun _ _ hw => hw)
      (fun _ _ hw => hw) fun _ hw => hw).onError fun _ _ hw => ⟨hw.beside, .inl hw.block⟩).bind
    intro _
    exact Prog.Spec.pure fun _ hw => ⟨fun _ => rfl, cap, hw⟩
  · rw [if_neg hfits]
    apply ((relocate_spec hb (Nat.le_add_right _ _)).onError fun _ _ hw =>
      ⟨hw.1, hw.2.imp id fun hgone => ⟨by omega, hgone⟩⟩).bind
    intro r'
    apply Prog.Spec.given
    intro hne
    apply ((appendWithin_spec (Nat.le_refl _)).onError fun _ _ hw =>
      ⟨hw.beside, .inr ⟨by omega, hw.gone hne⟩⟩).bind
    intro _
    exact Prog.Spec.pure fun _ hw => ⟨fun hno => absurd hno hfits, _, hw⟩

theorem moving_laws (a : Allocator) : ByteVecLaws (moving a) a.stack where
  len {w r content cap} hb := by
    obtain ⟨hok, herr, -⟩ := len_grown hb w (Grown.refl a.stack w)
    refine ⟨?_, fun n hn => (hok n hn).1⟩
    cases hout : (readU64 a.stack r.start w).out with
    | ok n => exact (hok n hout).2
    | error e => exact herr e hout
  capacity {w r content cap} hb := by
    obtain ⟨hok, herr, -⟩ := capacity_grown hb w (Grown.refl a.stack w)
    refine ⟨?_, fun n hn => (hok n hn).1⟩
    cases hout : (readU64 a.stack (r.start + 8) w).out with
    | ok n => exact (hok n hout).2
    | error e => exact herr e hout
  beside {w r content cap} bytes hb := by
    obtain ⟨hok, herr, -⟩ := moving_appends bytes hb w (Grown.refl a.stack w)
    cases hout : ((moving a).extendFromSlice r bytes w).out with
    | ok r' =>
        obtain ⟨-, cap', h⟩ := hok r' hout
        exact h.beside
    | error e => exact (herr e hout).1
  fails {w r content cap bytes e} hb he := ((moving_appends bytes hb w (Grown.refl a.stack w)).2.1 e he).2
  appends {w r r' content cap bytes} hb hok := by
    obtain ⟨hstays, cap', h⟩ := (moving_appends bytes hb w (Grown.refl a.stack w)).1 r' hok
    exact ⟨⟨cap', h.block⟩, hstays, h.freed⟩

end Moving

/-! ### Pushes that fail -/

section Example

def oneAllocator : Allocator := ⟨0, true, none, 0⟩

/-- A vector of one element, 7, in the block at 100, with its descriptor in the block at 16. -/
def oneElement : World :=
  ((do
    let _ ← alloc oneAllocator 32
    let _ ← alloc oneAllocator 24
    set 0 16 (bytevecImage 100 24)
    set 0 100 (bytevecImage 8 8 ++ leBytes 8 7)) (World.blank [16, 100, 200])).final

def oneVec : BStackVec := ⟨⟨100, 24⟩, some ⟨16, 16⟩⟩

def detachedVec : BStackVec := ⟨⟨100, 24⟩, none⟩

/-- The steps behind the first `n` ones fail. -/
def failsAfter (n : Nat) : World := { oneElement with faults := List.replicate n false ++ [true] }

theorem oneElement_holds {v : BStackVec} {w : World} (hv : v = oneVec ∨ v = detachedVec)
    (hw : w.files = oneElement.files) : Holds v (w.files 0) [7] := by
  have hdata : v.data = ⟨100, 24⟩ := by rcases hv with rfl | rfl <;> rfl
  rw [hw]
  refine ⟨⟨8, ?_⟩, fun loc hloc => ?_⟩
  · rw [hdata]
    exact ⟨by decide +kernel, by decide +kernel, by decide +kernel, by decide +kernel, by decide +kernel,
      by decide +kernel⟩
  · rw [hdata]
    rcases hv with rfl | rfl
    · obtain rfl : (⟨16, 16⟩ : Range) = loc := Option.some.inj hloc
      exact ⟨⟨⟨16, 32⟩, by decide +kernel, by decide, by decide, by decide⟩, by decide +kernel, by decide +kernel⟩
    · cases hloc

/-- A full vector grows: without a fault the push is exact, in its field or detached, and so it is when the copy of the
elements fails; it is not when the free of the old block fails, nor when a detached vector has moved its bytes and the
append behind it fails. -/
theorem push_exact_iff_full :
    Exact oneAllocator (pushOwned (moving oneAllocator) oneAllocator ⟨9⟩) oneVec oneElement [7] 9 (⟨9⟩ : Owned) ∧
    Exact oneAllocator (pushStrong (moving oneAllocator) oneAllocator ⟨9,
      3⟩) detachedVec oneElement [7] 9 (⟨9, 3⟩ : Rc) ∧
    Exact oneAllocator (pushWeak (moving oneAllocator) oneAllocator ⟨9⟩) oneVec (failsAfter 5) [7] 9 (⟨9⟩ : Weak) ∧
    ¬ Exact oneAllocator (pushOwned (moving oneAllocator) oneAllocator ⟨9⟩) oneVec (failsAfter 8) [7] 9 (⟨9⟩ : Owned) ∧
    ¬ Exact oneAllocator (pushOwned (moving oneAllocator) oneAllocator ⟨9⟩) detachedVec (failsAfter 8) [7] 9
      (⟨9⟩ : Owned) := by
  have hfield : ∀ n, Holds oneVec ((failsAfter n).files 0) [7] := fun _ => oneElement_holds (.inl rfl) rfl
  have hdetached : ∀ n, Holds detachedVec ((failsAfter n).files 0) [7] := fun _ => oneElement_holds (.inr rfl) rfl
  refine ⟨?_, ?_, ?_, fun h => ?_, fun h => ?_⟩
  · exact ((push_exact_iff (moving_laws oneAllocator) (oneElement_holds (.inl rfl) rfl)).1 ⟨9⟩).mpr (by decide +kernel)
  · exact ((push_exact_iff (moving_laws oneAllocator) (oneElement_holds (.inr rfl) rfl)).2.1 ⟨9, 3⟩).mpr
      (by decide +kernel)
  · exact ((push_exact_iff (moving_laws oneAllocator) (hfield 5)).2.2 ⟨9⟩).mpr (by decide +kernel)
  · exact ((push_exact_iff (moving_laws oneAllocator) (hfield 8)).1 ⟨9⟩).mp h (by decide +kernel)
  · exact ((push_exact_iff (moving_laws oneAllocator) (hdetached 8)).1 ⟨9⟩).mp h (by decide +kernel)

/-- The push reports an error and returns the element, and the vector holds it. -/
theorem failed_push_keeps_element :
    (pushOwned (moving oneAllocator) oneAllocator ⟨9⟩ (oneVec, failsAfter 8)).out = .ok (.error (ioFault, ⟨9⟩)) ∧
    ((pushOwned (moving oneAllocator) oneAllocator ⟨9⟩ (oneVec, failsAfter 8)).final.2.files 0).bytes.read 216 16 =
      leBytes 8 7 ++ leBytes 8 9 ∧
    ¬ Exact oneAllocator (pushOwned (moving oneAllocator) oneAllocator ⟨9⟩) oneVec (failsAfter 8)
    [7] 9 (⟨9⟩ : Owned) := by
  have hout : (pushOwned (moving oneAllocator) oneAllocator ⟨9⟩ (oneVec, failsAfter 8)).out =
      .ok (.error (ioFault, ⟨9⟩)) := by decide +kernel
  refine ⟨hout, by decide +kernel, fun hexact => ?_⟩
  simp only [Exact, hout] at hexact
  obtain ⟨-, ⟨cap, hb⟩, -⟩ := hexact
  exact absurd hb.lenWord (by decide +kernel)

end Example

end BStackVec

end BStackRaii
