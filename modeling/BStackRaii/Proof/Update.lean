import BStackRaii.Model.Update
import BStackRaii.Proof.Effects
/-!
# Words, images and updates under faults

The rules for the helpers of `stdlib/util.rs` that every container calls: reads of adjacent words, blocks
allocated with an image, and updates whose generator raises the error it kept aside.
-/

namespace BStackRaii

variable {a : Allocator} {w₀ : World} {C : World → Prop} {E : IoError → World → Prop}

/-! ### Words of buffers -/

theorem getU64_read {m : Mem} {off n i : Nat} (h : i + 8 ≤ n) : getU64 (m.read off n) i = m.word (off + i) := by
  rw [getU64, Mem.take_drop_read h, ← Mem.word]

theorem getU64_leBytes {v : Nat} (hv : v < 2 ^ 64) (rest : List UInt8) : getU64 (leBytes 8 v ++ rest) 0 = v := by
  rw [getU64, List.drop_zero, List.take_append_of_le_length (by simp), take_leBytes (Nat.le_refl 8),
    leNat_leBytes (by simpa using hv)]

theorem word_image {m : Mem} {off : Nat} {vs : List Nat} (hvs : ∀ v ∈ vs, v < 2 ^ 64)
    (hread : m.read off (vs.flatMap (leBytes 8)).length = vs.flatMap (leBytes 8)) {i : Nat} (hi : i < vs.length) :
    m.word (off + i * 8) = vs[i] := by
  induction vs generalizing off i with
  | nil => exact absurd hi (Nat.not_lt_zero i)
  | cons v vs ih =>
      rw [List.flatMap_cons, List.length_append, length_leBytes, Mem.read_add] at hread
      obtain ⟨hhead, htail⟩ := List.append_inj hread (by rw [Mem.length_read, length_leBytes])
      cases i with
      | zero =>
          rw [Nat.zero_mul, Nat.add_zero, Mem.word, hhead, leNat_leBytes (by simpa using hvs v List.mem_cons_self)]
          rfl
      | succ i =>
          have hrest := ih (fun x hx => hvs x (List.mem_cons_of_mem v hx)) htail (Nat.lt_of_succ_lt_succ hi)
          rw [show off + (i + 1) * 8 = off + 8 + i * 8 by omega, hrest]
          rfl

theorem File.writeAll_append (ws ws' : Batch) (f : File) :
    File.writeAll (ws ++ ws') f = File.writeAll ws' (File.writeAll ws f) := by
  induction ws generalizing f with
  | nil => rfl
  | cons x ws ih => exact ih _

/-! ### A block with an image -/

/-- The block `r` holds `bytes`. -/
structure Filled (r : Range) (bytes : List UInt8) (f : File) : Prop where
  len : r.len = bytes.length
  live : r ∈ f.live
  read : f.bytes.read r.start bytes.length = bytes

theorem allocImage_under {I : File → Prop} {J K : Range → File → Prop} (bytes : List UInt8)
    (hgrant : ∀ f r (h : f.Admits r), I f → r.len = bytes.length → J r (f.allocAt r h))
    (hin : ∀ r f, J r f → r.start + bytes.length ≤ f.len)
    (hwrite : ∀ r f, J r f → K r (f.write r.start bytes)) :
    Prog.Spec (Under w₀ a.stack I) (allocImage a bytes) (fun r w => Under w₀ a.stack (K r) w) (fun _ _ => True)
      fun _ => True := by
  rw [allocImage]
  apply Prog.Spec.bind (alloc_under hgrant (fun _ _ => trivial) fun _ _ _ _ => trivial)
  intro r
  apply Prog.Spec.bind (Q := fun o w => o = .ok () → Under w₀ a.stack (K r) w)
  · apply Prog.Spec.attempt
    refine (set_under (J := K r) (hin r) (hwrite r) (fun _ _ => trivial) fun e w _ _ h => ?_).weaken
      (fun _ h => h) (fun _ _ h _ => h) (fun _ _ h => h) fun _ h => h
    cases h
  · intro o
    cases o with
    | ok _ => exact Prog.Spec.pure fun w hw => hw rfl
    | error e =>
        apply Prog.Spec.bind (Q := fun _ _ => True)
        · exact fun w _ => ⟨fun _ _ => trivial, fun _ _ => trivial, fun _ _ => trivial⟩
        · exact fun _ => Prog.Spec.fail fun _ _ => trivial

theorem allocImage_spec (bytes : List UInt8) :
    Prog.Spec (Under w₀ a.stack fun _ => True) (allocImage a bytes)
      (fun r w => Under w₀ a.stack (Filled r bytes) w) (fun _ _ => True) fun _ => True := by
  refine allocImage_under (J := fun r f => r.len = bytes.length ∧ r ∈ f.live) bytes
    (fun f r hr _ hlen => ⟨hlen, List.mem_cons_self⟩) (fun r f hf => ?_) fun r f hf => ?_
  · rw [← hf.1]
    exact (f.inside r hf.2).2
  · exact ⟨hf.1, hf.2, Mem.read_write_self f.bytes r.start bytes⟩

/-- A block of words beside the blocks `kept`. -/
structure Words (vs : List Nat) (kept : List Range) (b : Range) (f : File) : Prop where
  block : ⟨b.start, vs.length * 8⟩ ∈ f.live
  words : ∀ i, (hi : i < vs.length) → f.bytes.word (b.start + i * 8) = vs[i]
  kept : ∀ r ∈ kept, r ∈ f.live ∧ r.start ≠ b.start
  low : 16 ≤ b.start

theorem allocWords_spec {vs : List Nat} (hvs : ∀ v ∈ vs, v < 2 ^ 64) (hpos : 0 < vs.length) {kept : List Range}
    (hkept : ∀ r ∈ kept, 0 < r.len) :
    Prog.Spec (Under w₀ a.stack fun f => ∀ r ∈ kept, r ∈ f.live) (allocImage a (vs.flatMap (leBytes 8)))
      (fun b w => Under w₀ a.stack (Words vs kept b) w) (fun _ _ => True) fun _ => True := by
  have hlength : (vs.flatMap (leBytes 8)).length = vs.length * 8 := by
    rw [List.length_flatMap]
    simp
  apply allocImage_under (J := fun b f => (⟨b.start, vs.length * 8⟩ ∈ f.live ∧ 16 ≤ b.start) ∧
    ∀ r ∈ kept, r ∈ f.live ∧ r.start ≠ b.start)
  · intro f r hr hlive hlen
    rw [hlength] at hlen
    refine ⟨⟨?_, hr.1⟩, fun b hb => ⟨List.mem_cons_of_mem r (hlive b hb), ?_⟩⟩
    · rw [← hlen]
      exact List.mem_cons_self
    · exact (hr.start_ne (by omega) (hlive b hb) (hkept b hb)).symm
  · intro r f hf
    rw [hlength]
    exact (f.inside _ hf.1.1).2
  · intro r f hf
    obtain ⟨⟨hblock, hlow⟩, hbeside⟩ := hf
    exact ⟨hblock, fun i hi => word_image hvs (Mem.read_write_self f.bytes r.start _) hi, hbeside, hlow⟩

/-! ### Reads and updates -/

theorem readFields_under {k off n : Nat} {I : File → Prop} (hin : ∀ f, I f → off + n * 8 ≤ f.len)
    (hE : ∀ e w, IoFailed w₀ e → Under w₀ k I w → E e w) :
    Prog.Spec (Under w₀ k I) (readFields k off n)
      (fun fields w => Under w₀ k (fun f => I f ∧ fields = (List.range n).map fun i => f.bytes.word (off + i * 8)) w)
      E C := by
  apply (getInto_under hin hE).bind
  intro b
  apply Prog.Spec.pure
  intro w hw
  apply hw.mono
  intro f hf
  refine ⟨hf.1, List.map_congr_left fun i hi => ?_⟩
  have hlt := List.mem_range.mp hi
  rw [hf.2, getU64_read (by omega)]

/-- An update whose plan leaves the file in `J`. -/
theorem atomicUpdate_under {α : Type} {reads1 : List Nat} {reads2 : List Nat → Except IoError (List Nat)}
    {plan : List Nat → List Nat → Except IoError (Batch × α)} {I : File → Prop} {J : α → File → Prop}
    (heval : ∀ f, I f → ∃ ws r, (updateGen reads1 reads2 plan).eval f = .ok (ws, r) ∧
      (∀ x ∈ ws, x.1 + x.2.length ≤ f.len) ∧ J r (File.writeAll ws f))
    (hC : ∀ w, Under w₀ a.stack I w → C w) (hE : ∀ e w, IoFailed w₀ e → Under w₀ a.stack I w → E e w) :
    Prog.Spec (Under w₀ a.stack I) (atomicUpdate a reads1 reads2 plan).run (fun r w => Under w₀ a.stack (J r) w)
      E C := by
  simp only [atomicUpdate, Script.run_bind, Script.run_atom, Script.run_lift]
  exact inplaceGen_lift_under heval hC hE

end BStackRaii
