import BStackRaii.Proof.Vec
/-!
# Where a growth writes

A growth whose size fits a word writes into the block that it has just allocated, and into the inline descriptor.
The header in front of the capacity is what can fail to fit: the doubling saturates, and the addition does not.
-/

namespace BStackRaii

/-! ### Writes inside a set of bytes -/

/-- `w` has the bytes of `w₀` but for those of file `k` in `S`. -/
def Inside (S : Nat → Prop) (k : Nat) (w₀ w : World) : Prop :=
  ∀ j x, (w.files j).bytes x ≠ (w₀.files j).bytes x → j = k ∧ S x

namespace Inside

variable {S : Nat → Prop} {k : Nat} {w₀ w w' : World} {off : Nat} {data : List UInt8} {r : Range}

theorem refl : Inside S k w w := fun _ _ h => (h rfl).elim

theorem congr (h : Inside S k w₀ w) (hfiles : w'.files = w.files) : Inside S k w₀ w' := by
  intro j x hx
  rw [hfiles] at hx
  exact h j x hx

theorem write (h : Inside S k w₀ w) (hfiles : ∀ j ≠ k, w'.files j = w.files j)
    (hbytes : (w'.files k).bytes = (w.files k).bytes.write off data)
    (hS : ∀ x, off ≤ x → x < off + data.length → S x) : Inside S k w₀ w' := by
  intro j x hx
  by_cases hj : j = k
  · subst hj
    rw [hbytes] at hx
    by_cases hlo : x < off
    · rw [Mem.write_of_lt hlo] at hx
      exact h j x hx
    · by_cases hhi : x < off + data.length
      · exact ⟨rfl, hS x (Nat.not_lt.1 hlo) hhi⟩
      · rw [Mem.write_of_ge (Nat.not_lt.1 hhi)] at hx
        exact h j x hx
  · rw [hfiles j hj] at hx
    exact h j x hx

theorem store (h : Inside S k w₀ w) (hS : ∀ x, off ≤ x → x < off + data.length → S x) :
    Inside S k w₀ (w.store k off data) :=
  h.write (fun _ hj => World.files_store_ne hj) (by rw [World.files_store_same, File.bytes_write]) hS

theorem grant {hr : (w.files k).Admits r} (h : Inside S k w₀ w) (hS : ∀ x, r.start ≤ x → x < r.stop → S x) :
    Inside S k w₀ (w.grant k r hr) := by
  refine h.write (fun _ hj => World.files_grant_ne hj) (by rw [World.files_grant_same, File.bytes_allocAt]) ?_
  rw [List.length_replicate]
  exact hS

theorem release (h : Inside S k w₀ w) : Inside S k w₀ (w.release k r) := by
  intro j x hx
  by_cases hj : j = k
  · subst hj
    rw [World.files_release_same, File.bytes_free] at hx
    exact h j x hx
  · rw [World.files_release_ne hj] at hx
    exact h j x hx

end Inside

/-! ### Steps that keep a property -/

section Steps

variable {P : World → Prop} {a : Allocator} {r : Range}

theorem dealloc_keeps (hhand : ∀ w, P w → P (w.tick.handIn a.stack r))
    (hfree : ∀ w, P w → P (w.tick.release a.stack r)) :
    Prog.Spec P (deallocRange a r) (fun _ => P) (fun e w => e ≠ BStackVec.overflowed ∧ P w) P :=
  deallocRange_rule (fun w hw _ => hfree w hw) (fun w hw _ => ⟨by decide, hhand w hw⟩)
    (fun w hw _ => ⟨by decide, hhand w hw⟩) fun _ h => h

end Steps

namespace BStackVec

/-! ### Additions -/

theorem plus_exact {b : Build} {x y : Nat} : plus b x y = .ok (x + y) ↔ x + y < 2 ^ 64 := by
  cases b with
  | debug =>
      rw [plus, checkedAdd]
      simp
  | release =>
      simp only [plus, Except.ok.injEq]
      exact ⟨fun h => h ▸ Nat.mod_lt _ (by decide), Nat.mod_eq_of_lt⟩

theorem size_fits {cap newLen : Nat} :
    BYTEVEC_HEADER + newCapacity cap newLen < 2 ^ 64 ↔ cap < 2 ^ 63 - 8 ∧ newLen < 2 ^ 64 - 16 := by
  simp only [BYTEVEC_HEADER, newCapacity]
  omega

/-! ### A growth -/

section Growth

variable {b : Build} {bv : ByteVec} {a : Allocator} {v : BStackVec} {old loc slice : Range} {w w₀ : World}
  {len cap newLen newCap : Nat} {value : List UInt8} {S : Nat → Prop}

theorem copyOld_sums (hold : old.start + BYTEVEC_HEADER < 2 ^ 64) (hnew : slice.start + BYTEVEC_HEADER < 2 ^ 64) :
    copyOld a (sums b) old slice len = copyOld a .checked old slice len := by
  simp only [copyOld, sums, Sums.checked, plus_exact.2 hold, plus_exact.2 hnew]

/-- Where the offsets fit a word, the builds fill a block alike. -/
theorem build_sums (hold : old.start + BYTEVEC_HEADER < 2 ^ 64) (hoff : slice.start + BYTEVEC_HEADER + len < 2 ^ 64) :
    build a (sums b) old slice len newLen newCap value = build a .checked old slice len newLen newCap value := by
  have hnew : slice.start + BYTEVEC_HEADER < 2 ^ 64 := Nat.lt_of_le_of_lt (Nat.le_add_right ..) hoff
  rw [build_checked, build, copyOld_sums hold hnew]
  simp only [sums, plus_exact.2 hnew, plus_exact.2 hoff, Prog.lift_ok, pure_bind]

theorem build_keeps (hold : old.start + BYTEVEC_HEADER < 2 ^ 64) (hslice : slice.stop < 2 ^ 64)
    (hroom : BYTEVEC_HEADER + len + value.length ≤ slice.len) (hS : ∀ x, slice.start ≤ x → x < slice.stop → S x) :
    Prog.Spec (Inside S a.stack w₀) (build a (sums b) old slice len newLen newCap value) (fun _ => Inside S a.stack w₀)
      (fun e w => e ≠ overflowed ∧ Inside S a.stack w₀ w) (Inside S a.stack w₀) := by
  have hstop : slice.stop = slice.start + slice.len := rfl
  have htick : ∀ w, Inside S a.stack w₀ w → Inside S a.stack w₀ w.tick := fun w h => h.congr rfl
  rw [build_sums hold (by omega), build_checked]
  simp only [BYTEVEC_HEADER] at hroom
  refine (set_step htick (fun w h => h.store fun x hx hx' => hS x hx ?_) fun _ h => h).bind fun _ => ?_
  · simp only [bytevecImage, List.length_append, length_leBytes] at hx'
    omega
  refine Prog.Spec.bind (Q := fun _ => Inside S a.stack w₀) ?_ fun _ => ?_
  · rw [copyOld_checked]
    split
    · refine copy_step htick (fun w h => h.store fun x hx hx' => hS x ?_ ?_) (fun _ h => h) <;>
        simp only [Mem.length_read, BYTEVEC_HEADER] at hx hx' <;> omega
    · exact Prog.Spec.pure fun _ h => h
  · refine set_step htick (fun w h => h.store fun x hx hx' => hS x ?_ ?_) (fun _ h => h) <;>
      simp only [BYTEVEC_HEADER] at hx hx' <;> omega

/-- The bytes that a growth at `w` may write: of the block that its allocation returns, and of the field `loc`. -/
def Ours (a : Allocator) (size : Nat) (loc : Range) (w : World) (x : Nat) : Prop :=
  (loc.start ≤ x ∧ x < loc.start + 16) ∨
    ∃ slice, (alloc a size w).out = .ok slice ∧ slice.start ≤ x ∧ x < slice.stop

theorem alloc_keeps (a : Allocator) (size : Nat) (loc : Range) (w : World) :
    Prog.Spec (· = w) (alloc a size)
      (fun slice w' => ((alloc a size w).out = .ok slice ∧ slice.len = size ∧ slice.stop < 2 ^ 64) ∧
        Inside (Ours a size loc w) a.stack w w')
      (fun e w' => e ≠ overflowed ∧ Inside (Ours a size loc w) a.stack w w')
      (Inside (Ours a size loc w) a.stack w) := by
  intro w' hw
  subst hw
  rcases alloc_outcome a size w' with ⟨e, w₁, hrun, he, hfiles⟩ | ⟨p, hadmits, hrun⟩
  · simp only [hrun]
    refine ⟨fun slice hok => ?_, fun e' he' => ?_, fun t ht => ?_⟩
    · cases hok
    · cases he'
      refine ⟨?_, Inside.refl.congr hfiles⟩
      rcases he with rfl | rfl <;> decide
    · rw [List.mem_singleton.1 ht]
      exact .refl
  · have hours : ∀ x, p ≤ x → x < p + size → Ours a size loc w' x := fun x hx hx' =>
      .inr ⟨⟨p, size⟩, by rw [hrun], hx, hx'⟩
    simp only [hrun]
    refine ⟨fun slice hok => ?_, fun e' he' => ?_, fun t ht => ?_⟩
    · cases hok
      exact ⟨⟨rfl, rfl, hadmits.2.1⟩, Inside.grant (Inside.refl.congr rfl) hours⟩
    · cases he'
    · rw [List.mem_singleton.1 ht]
      exact .refl

/-- A growth whose size fits returns the block that it has allocated, or an error, and writes there only. -/
theorem grow_keeps (hold : old.start + BYTEVEC_HEADER < 2 ^ 64) (hsize : BYTEVEC_HEADER + newCap < 2 ^ 64)
    (hroom : len + value.length ≤ newCap) (w : World) :
    Prog.Spec (· = w) (grow a (sums b) old len newLen newCap value)
      (fun slice w' => (alloc a (BYTEVEC_HEADER + newCap) w).out = .ok slice ∧
        Inside (Ours a (BYTEVEC_HEADER + newCap) loc w) a.stack w w')
      (fun e w' => e ≠ overflowed ∧ Inside (Ours a (BYTEVEC_HEADER + newCap) loc w) a.stack w w')
      (Inside (Ours a (BYTEVEC_HEADER + newCap) loc w) a.stack w) := by
  unfold grow
  rw [show (sums b).size BYTEVEC_HEADER newCap = .ok (BYTEVEC_HEADER + newCap) from plus_exact.2 hsize, Prog.lift_ok,
    pure_bind]
  refine (alloc_keeps a _ loc w).bind fun slice => Prog.Spec.given fun ⟨hslice, hlen, hstop⟩ => ?_
  have hours : ∀ x, slice.start ≤ x → x < slice.stop → Ours a (BYTEVEC_HEADER + newCap) loc w x := fun x hx hx' =>
    .inr ⟨slice, hslice, hx, hx'⟩
  have hbuild : Prog.Spec (Inside (Ours a (BYTEVEC_HEADER + newCap) loc w) a.stack w)
      (Prog.attempt (build a (sums b) old slice len newLen newCap value))
      (fun built w' => (∀ e, built = .error e → e ≠ overflowed) ∧
        Inside (Ours a (BYTEVEC_HEADER + newCap) loc w) a.stack w w')
      (fun e w' => e ≠ overflowed ∧ Inside (Ours a (BYTEVEC_HEADER + newCap) loc w) a.stack w w')
      (Inside (Ours a (BYTEVEC_HEADER + newCap) loc w) a.stack w) := by
    refine Prog.Spec.attempt ((build_keeps hold hstop (by omega) hours).weaken (fun _ h => h) (fun _ _ h => ⟨?_, h⟩)
      (fun _ _ h => ⟨?_, h.2⟩) fun _ h => h)
    · intro e he
      cases he
    · intro e he
      cases he
      exact h.1
  refine hbuild.bind fun built => Prog.Spec.given fun hne => ?_
  cases built with
  | ok _ => exact Prog.Spec.pure fun _ h => ⟨hslice, h⟩
  | error e =>
      have hfree : Prog.Spec (Inside (Ours a (BYTEVEC_HEADER + newCap) loc w) a.stack w)
          (Prog.attempt (deallocRange a slice)) (fun _ => Inside (Ours a (BYTEVEC_HEADER + newCap) loc w) a.stack w)
          (fun e w' => e ≠ overflowed ∧ Inside (Ours a (BYTEVEC_HEADER + newCap) loc w) a.stack w w')
          (Inside (Ours a (BYTEVEC_HEADER + newCap) loc w) a.stack w) :=
        Prog.Spec.attempt ((dealloc_keeps (fun _ h => h.congr rfl) fun w h => Inside.release (w := w.tick)
          (h.congr rfl)).weaken (fun _ h => h)
          (fun _ _ h => h) (fun _ _ h => h.2) fun _ h => h)
      exact hfree.bind fun _ => Prog.Spec.fail fun _ h => ⟨hne e rfl, h⟩

end Growth

/-! ### A push that grows -/

/-- `BStackByteVec::len` and `capacity` read the words of the header. -/
structure ReadsHeader (bv : ByteVec) (k : Nat) : Prop where
  len : ∀ r, bv.len r = readU64 k r.start
  capacity : ∀ r, bv.capacity r = readU64 k (r.start + 8)

/-- What a growth should be when the header words are `len` and `cap`: the size of the new block is exact and has
room for the new length, it returns an error or the descriptor names the new block, and at each point it has
written to that block and to the descriptor only. -/
structure Contained (b : Build) (bv : ByteVec) (a : Allocator) (v : BStackVec) (w : World) (loc : Range)
    (value : List UInt8) (len cap : Nat) : Prop where
  size : plus b BYTEVEC_HEADER (newCapacity cap (len + value.length)) =
    .ok (BYTEVEC_HEADER + newCapacity cap (len + value.length))
  room : len + value.length ≤ newCapacity cap (len + value.length)
  returns : (pushInner bv a b value (v, w)).out ≠ .error overflowed
  commits : (pushInner bv a b value (v, w)).out = .ok () → ∃ slice,
    (alloc a (BYTEVEC_HEADER + newCapacity cap (len + value.length)) (headerWords bv v.data w).final).out = .ok slice ∧
      (pushInner bv a b value (v, w)).final.1 = ⟨slice, some loc⟩ ∧
      ((pushInner bv a b value (v, w)).final.2.files a.stack).bytes.read loc.start 16 = descriptor ⟨slice, some loc⟩
  inside : ∀ s ∈ (pushInner bv a b value (v, w)).states,
    Inside (Ours a (BYTEVEC_HEADER + newCapacity cap (len + value.length)) loc (headerWords bv v.data w).final)
      a.stack w s.2

section Push

variable {b : Build} {bv : ByteVec} {a : Allocator} {v : BStackVec} {loc : Range} {w : World} {len cap : Nat}
  {value : List UInt8}

theorem readU64_ok {k off x : Nat} (h : (readU64 k off w).out = .ok x) :
    readU64 k off w = ⟨.ok x, w.tick, []⟩ ∧ off + 8 ≤ (w.files k).len := by
  rw [readU64] at h ⊢
  obtain ⟨buf, hbuf, hx, -, -⟩ := Prog.bind_ok_inv h
  have hget : getInto k off 8 w = ⟨.ok buf, w.tick, []⟩ ∧ off + 8 ≤ (w.files k).len := by
    simp only [getInto, Prog.volatile_apply] at hbuf ⊢
    split_ifs at hbuf ⊢ with hfaulty hin
    cases hbuf
    exact ⟨rfl, hin⟩
  rw [Prog.bind_of_ok hget.1]
  cases hx
  exact ⟨rfl, hget.2⟩

theorem headerWords_ok (hbv : ReadsHeader bv a.stack) (h : (headerWords bv v.data w).out = .ok (len, cap)) :
    headerWords bv v.data w = ⟨.ok (len, cap), w.tick.tick, []⟩ ∧
      v.data.start + BYTEVEC_HEADER ≤ (w.files a.stack).len := by
  rw [headerWords, hbv.len, hbv.capacity] at h ⊢
  obtain ⟨len', hlen, hrest, -, -⟩ := Prog.bind_ok_inv h
  obtain ⟨hlenRun, -⟩ := readU64_ok hlen
  rw [hlenRun] at hrest
  obtain ⟨cap', hcap, hwords, -, -⟩ := Prog.bind_ok_inv hrest
  obtain ⟨hcapRun, hin⟩ := readU64_ok hcap
  rw [Prog.bind_of_ok hlenRun, Prog.bind_of_ok hcapRun]
  cases hwords
  exact ⟨rfl, hin⟩

theorem pushInner_growth (hfield : v.writeback = some loc)
    (hwords : headerWords bv v.data w = ⟨.ok (len, cap), w.tick.tick, []⟩) (hlen : len + value.length < 2 ^ 64)
    (hgrow : cap < len + value.length) :
    pushInner bv a b value (v, w) =
      (Prog.onSnd (grow a (sums b) v.data len (len + value.length) (newCapacity cap (len + value.length)) value >>=
        fun slice => pure (.moved slice v.data)) >>= commit a) (v, w.tick.tick) := by
  have hplace : place bv a (sums b) v value w =
      (grow a (sums b) v.data len (len + value.length) (newCapacity cap (len + value.length)) value >>=
        fun slice => pure (.moved slice v.data)) w.tick.tick := by
    have hnot : ¬(len + value.length ≤ cap ∨ v.writeback = none) := by
      rintro (h | h)
      · omega
      · rw [hfield] at h
        cases h
    rw [place, Prog.bind_of_ok hwords, Run.after_nil]
    simp only [checkedAdd, if_pos hlen, Prog.lift_ok, pure_bind, if_neg hnot]
  have hself : self (v, w) = ⟨.ok v, (v, w), []⟩ := rfl
  rw [pushInner, Prog.bind_of_ok hself, Run.after_nil]
  have hsnd : Prog.onSnd (place bv a (sums b) v value) (v, w) =
      Prog.onSnd (grow a (sums b) v.data len (len + value.length) (newCapacity cap (len + value.length)) value >>=
        fun slice => pure (.moved slice v.data)) (v, w.tick.tick) := by
    rw [Prog.onSnd, Prog.onSnd, hplace]
  change Prog.andThen _ _ _ = Prog.andThen _ _ _
  rw [Prog.andThen, Prog.andThen, hsnd]

theorem commit_keeps {S : Nat → Prop} {w₀ : World} (slice old : Range) (hfield : v.writeback = some loc)
    (hloc : ∀ x, loc.start ≤ x → x < loc.start + 16 → S x) :
    Prog.Spec (fun s => s.1 = v ∧ Inside S a.stack w₀ s.2) (commit a (.moved slice old))
      (fun _ s => (s.1 = ⟨slice, some loc⟩ ∧
        (s.2.files a.stack).bytes.read loc.start 16 = descriptor ⟨slice, some loc⟩) ∧ Inside S a.stack w₀ s.2)
      (fun e s => e ≠ overflowed ∧ Inside S a.stack w₀ s.2) fun s => Inside S a.stack w₀ s.2 := by
  have hv : { v with data := slice } = (⟨slice, some loc⟩ : BStackVec) := by rw [hfield]
  have hlength : (descriptor ⟨slice, some loc⟩).length = 16 := by simp [descriptor]
  have htick : ∀ w, Inside S a.stack w₀ w → Inside S a.stack w₀ w.tick := fun w h => h.congr rfl
  let Named (w : World) : Prop := Inside S a.stack w₀ w ∧
    (w.files a.stack).bytes.read loc.start 16 = descriptor ⟨slice, some loc⟩
  have hstore : Prog.Spec (Inside S a.stack w₀) (set a.stack loc.start (descriptor ⟨slice, some loc⟩))
      (fun _ => Named) (fun e w => e ≠ overflowed ∧ Inside S a.stack w₀ w) (Inside S a.stack w₀) := by
    apply Prog.Spec.durable
    · intro w _ t hw ht
      split_ifs at ht <;> cases ht
      refine ⟨(htick w hw).store fun x hx hx' => hloc x hx (by omega), ?_⟩
      rw [World.files_store_same, File.bytes_write, ← hlength, Mem.read_write_self]
    · intro w e t hw ht
      split_ifs at ht <;> cases ht <;> exact ⟨by decide, htick w hw⟩
    · exact fun _ h => h
  have hfree : Prog.Spec Named (deallocRange a old) (fun _ => Named) (fun e w => e ≠ overflowed ∧ Named w) Named := by
    refine dealloc_keeps (fun w hw => ⟨htick w hw.1, hw.2⟩) fun w hw => ⟨hw.1.release, ?_⟩
    rw [World.files_release_same, File.bytes_free]
    exact hw.2
  unfold commit
  refine Prog.Spec.bind (Q := fun _ s => s.1 = ⟨slice, some loc⟩ ∧ Inside S a.stack w₀ s.2) ?_ fun _ => ?_
  · refine Prog.Spec.onFst fun s hs => ⟨?_, hs.2⟩
    obtain ⟨rfl, -⟩ := hs
    exact hv
  refine Prog.Spec.bind (Q := fun _ s => s.1 = ⟨slice, some loc⟩ ∧ Named s.2) ?_ fun _ => ?_
  · unfold persist
    refine self_spec.bind fun u => Prog.Spec.given ?_
    rintro rfl
    exact (hstore.onSnd (· = ⟨slice, some loc⟩)).weaken (fun _ h => h) (fun _ _ h => h) (fun _ _ h => h.2) fun _ h => h
  · exact (hfree.onSnd (· = ⟨slice, some loc⟩)).weaken (fun _ h => h) (fun _ _ h => ⟨⟨h.1, h.2.2⟩, h.2.1⟩)
      (fun _ _ h => ⟨h.2.1, h.2.2.1⟩) fun _ h => h.1

/-- A growth is contained exactly if the new block and its header fit a word: the capacity is below `2 ^ 63 - 8`
and the new length below `2 ^ 64 - 16`. -/
theorem growth_contained_iff (hbv : ReadsHeader bv a.stack) (hfield : v.writeback = some loc)
    (hwords : (headerWords bv v.data w).out = .ok (len, cap)) (hlen : len + value.length < 2 ^ 64)
    (hgrow : cap < len + value.length) :
    Contained b bv a v w loc value len cap ↔ cap < 2 ^ 63 - 8 ∧ len + value.length < 2 ^ 64 - 16 := by
  refine ⟨fun h => size_fits.1 (plus_exact.1 h.size), fun h => ?_⟩
  have hsize := size_fits.2 h
  have hroom : len + value.length ≤ newCapacity cap (len + value.length) := Nat.le_max_right ..
  obtain ⟨hrun, hheader⟩ := headerWords_ok hbv hwords
  have hold := Nat.lt_of_le_of_lt hheader (w.files a.stack).addressable
  have hfinal : (headerWords bv v.data w).final = w.tick.tick := by rw [hrun]
  let S := Ours a (BYTEVEC_HEADER + newCapacity cap (len + value.length)) loc w.tick.tick
  have hplace : Prog.Spec (· = w.tick.tick)
      (grow a (sums b) v.data len (len + value.length) (newCapacity cap (len + value.length)) value >>=
        fun slice => pure (Placed.moved slice v.data))
      (fun placed w' => ∃ slice, ((alloc a (BYTEVEC_HEADER + newCapacity cap (len + value.length)) w.tick.tick).out =
        .ok slice ∧ placed = Placed.moved slice v.data) ∧ Inside S a.stack w.tick.tick w')
      (fun e w' => e ≠ overflowed ∧ Inside S a.stack w.tick.tick w') (Inside S a.stack w.tick.tick) :=
    (grow_keeps hold hsize hroom w.tick.tick).bind fun slice => Prog.Spec.pure fun _ hs => ⟨slice, ⟨hs.1, rfl⟩, hs.2⟩
  have hstart : Prog.Spec (· = (v, w.tick.tick)) _ _ _ _ := (hplace.onSnd (· = v)).weaken
    (fun _ hs => hs ▸ ⟨rfl, rfl⟩) (fun _ _ hs => hs) (fun _ _ hs => hs.2) fun _ hs => hs
  have hpush := hstart.bind (f := commit a) (R := fun _ s => (∃ slice,
      (alloc a (BYTEVEC_HEADER + newCapacity cap (len + value.length)) w.tick.tick).out = .ok slice ∧
        s.1 = ⟨slice, some loc⟩ ∧ (s.2.files a.stack).bytes.read loc.start 16 = descriptor ⟨slice, some loc⟩) ∧
      Inside S a.stack w.tick.tick s.2) fun placed => ?_
  · obtain ⟨hok, herr, hcuts⟩ := hpush _ rfl
    rw [← pushInner_growth hfield hrun hlen hgrow] at hok herr hcuts
    refine ⟨plus_exact.2 hsize, hroom, fun h => (herr _ h).1 rfl, fun h => ?_, fun s hs => ?_⟩
    · rw [hfinal]
      exact (hok _ h).1
    · rw [hfinal]
      rcases List.mem_append.1 hs with hs | hs
      · exact hcuts s hs
      · obtain rfl := List.mem_singleton.1 hs
        cases hout : (pushInner bv a b value (v, w)).out with
        | ok u => exact (hok u hout).2
        | error e => exact (herr e hout).2
  · rintro ⟨v', w'⟩ ⟨hv, slice, ⟨hslice, hplaced⟩, hs⟩
    subst hplaced
    have hcommit := (commit_keeps slice v.data hfield fun x hx hx' => show S x from .inl ⟨hx, hx'⟩) (v', w') ⟨hv, hs⟩
    exact ⟨fun u hu => ⟨⟨slice, hslice, (hcommit.1 u hu).1⟩, (hcommit.1 u hu).2⟩, hcommit.2⟩

end Push

/-! ### A size that wraps -/

def vecFile (len cap : Nat) : File where
  bytes := Mem.write (fun _ => 0) 16 (bytevecImage len cap)
  len := 128
  live := [⟨16, 32⟩, ⟨63, 8⟩, ⟨80, 16⟩]
  apart := by decide
  inside := by decide
  addressable := by decide

def vecWorld (place len cap : Nat) : World := { World.blank [place] with files := fun _ => vecFile len cap }

def vecAlloc : Allocator := ⟨0, true, none, 0⟩

def vecHandle : BStackVec := ⟨⟨16, 32⟩, some ⟨80, 16⟩⟩

def headerBytes : ByteVec := ⟨fun r => readU64 0 r.start, fun r => readU64 0 (r.start + 8), fun r _ => pure r⟩

theorem headerBytes_reads : ReadsHeader headerBytes vecAlloc.stack := ⟨fun _ => rfl, fun _ => rfl⟩

theorem growth_contained_small :
    Contained .release headerBytes vecAlloc vecHandle (vecWorld 96 8 8) ⟨80, 16⟩ (leBytes 8 7) 8 8 :=
  (growth_contained_iff headerBytes_reads rfl (by decide +kernel) (by decide) (by decide)).2 (by decide)

/-- With both words at `2 ^ 63` the size wraps to 15. The header spills into the block behind, the copy fails, and the
push returns the error. -/
theorem growth_spills :
    (headerWords headerBytes vecHandle.data (vecWorld 48 (2 ^ 63) (2 ^ 63))).out = .ok (2 ^ 63, 2 ^ 63) ∧
      (pushInner headerBytes vecAlloc .release (leBytes 8 7) (vecHandle, vecWorld 48 (2 ^ 63) (2 ^ 63))).out =
        .error outOfBounds ∧
      ((vecWorld 48 (2 ^ 63) (2 ^ 63)).files 0).bytes 63 = 0 ∧
      ((pushInner headerBytes vecAlloc .release (leBytes 8 7)
        (vecHandle, vecWorld 48 (2 ^ 63) (2 ^ 63))).final.2.files 0).bytes 63 = 255 ∧
      ¬Contained .release headerBytes vecAlloc vecHandle (vecWorld 48 (2 ^ 63) (2 ^ 63)) ⟨80, 16⟩ (leBytes 8 7)
        (2 ^ 63) (2 ^ 63) := by
  refine ⟨by decide +kernel, by decide +kernel, by decide +kernel, by decide +kernel, fun h => ?_⟩
  have hsize := plus_exact.1 h.size
  revert hsize
  decide

end BStackVec

end BStackRaii
