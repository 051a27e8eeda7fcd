import BStackRaii.Proof.Table.Grow
/-!
# Calls on a bucket table

What the operations do when nobody else touches the table, whichever of their I/O steps fail. `Roomy`
is the invariant that the load factor maintains: a table that is there has an empty bucket.
-/

namespace BStackRaii

open Probing

namespace BucketTable

variable {ksize : Nat} {V : Type} {P : Payload V} {a : Allocator} {handle size : Nat} {w₀ : World}
  {t t' : Table ksize V} {f : File} {C : World → Prop} {k : Key ksize}

def Roomy (t : Table ksize V) : Prop := t.info.cap = 0 ∨ t.info.used < t.info.cap

/-- The errors of a growth of the table `t`: the environment, and a capacity whose buckets have no address. -/
def Failure (P : Payload V) (a : Allocator) (w₀ : World) (t : Table ksize V) (e : IoError) (w : World) : Prop :=
  EnvError a (newcapOf t.info.cap * width P ksize) w₀ e w ∨
    (e = badCapacity ∧ 2 ^ 64 ≤ newcapOf t.info.cap * width P ksize)

/-- The errors of an insertion into the table `t`, which grows it where it is crowded. -/
def InsertFailure (P : Payload V) (a : Allocator) (w₀ : World) (t : Table ksize V) (e : IoError) (w : World) :
    Prop := IoFailed w₀ e ∨ (Crowded t.info.cap t.info.used ∧ Failure P a w₀ t e w)

/-- `t'` has the entries of `t`, and a bigger capacity without tombstones. -/
structure Grew (t t' : Table ksize V) : Prop where
  cap : t'.info.cap = newcapOf t.info.cap
  len : t'.info.len = t.info.len
  used : t'.info.used = t.info.len
  maps : ∀ m, Maps t.info.cap t.slots m → Maps t'.info.cap t'.slots m

theorem width_pos (P : Payload V) (ksize : Nat) : 8 ≤ width P ksize := by
  simp only [width]
  omega

theorem Laid.size_lt (h : Laid P f handle size t) : t.info.cap * width P ksize < 2 ^ 64 := by
  by_cases hcap : t.info.cap = 0
  · rw [hcap, Nat.zero_mul]
    decide
  · have hin := h.block_inside (by omega)
    have haddr := f.addressable
    omega

theorem Laid.cap_small (h : Laid P f handle size t) : t.info.cap * 8 < 2 ^ 64 :=
  Nat.lt_of_le_of_lt (Nat.mul_le_mul_left _ (width_pos P ksize)) h.size_lt

theorem Laid.newcapOf_spec (h : Laid P f handle size t) :
    t.info.cap < newcapOf t.info.cap ∧ (∃ e, newcapOf t.info.cap = 2 ^ (e + 2)) ∧
      2 * t.info.cap ≤ newcapOf t.info.cap := by
  have hsmall := h.cap_small
  rw [newcapOf]
  by_cases hcap : t.info.cap = 0
  · rw [if_pos hcap, hcap]
    exact ⟨by decide, ⟨0, rfl⟩, by decide⟩
  · rw [if_neg hcap, Nat.min_eq_left (by omega)]
    refine ⟨by omega, ?_, by omega⟩
    obtain ⟨e, he⟩ := h.pow.resolve_left hcap
    exact ⟨e + 1, by rw [he, ← Nat.pow_succ]⟩

theorem Laid.cap_word (h : Laid P f handle size t) : f.bytes.word (handle + CAP_OFF) = t.info.cap := by
  rw [← h.info, metaOf_read]
  rfl

theorem Laid.word_in (h : Laid P f handle size t) (off : Nat) (hoff : off + 8 ≤ 48) :
    handle + off + 8 ≤ f.len := by
  have hin := h.header_inside
  have hsize := h.size_le
  omega

theorem Tabled.allocAt (h : Tabled P f handle size t) {r : Range} (hr : f.Admits r) :
    Tabled P (f.allocAt r hr) handle size t := by
  refine ⟨h.toLaid.frame fun b hb => ?_, h.toSound⟩
  have hmem : b ∈ f.live := by
    cases hb with
    | inl hb => exact hb ▸ h.header
    | inr hb => exact hb.2 ▸ h.block hb.1
  refine ⟨List.mem_cons_of_mem _ hmem, fun x hlo hhi => ?_⟩
  rw [File.bytes_allocAt]
  cases (hr.2.2 b hmem).2 with
  | inl hl => exact Mem.write_of_lt (by omega)
  | inr hr => exact Mem.write_of_ge (by rw [List.length_replicate]; exact Nat.le_trans hr hlo)

theorem Tabled.free (h : Tabled P f handle size t) {r : Range} (hheader : r ≠ ⟨handle, size⟩)
    (hblock : 0 < t.info.cap → r ≠ t.block P) : Tabled P (f.free r) handle size t := by
  refine ⟨h.toLaid.frame fun b hb => ⟨?_, fun _ _ _ => rfl⟩, h.toSound⟩
  rw [File.live_free]
  cases hb with
  | inl hb =>
      rw [hb]
      exact (List.mem_erase_of_ne (Ne.symm hheader)).mpr h.header
  | inr hb =>
      rw [hb.2]
      exact (List.mem_erase_of_ne (Ne.symm (hblock hb.1))).mpr (h.block hb.1)

theorem ne_of_apart {b c : Range} (h : b.Apart c) : c ≠ b := fun he => h.1 he.symm

/-! ### Growing -/

structure Spare (P : Payload V) (handle size : Nat) (t : Table ksize V) (r : Range) (f : File) : Prop where
  tabled : Tabled P f handle size t
  len : r.len = newcapOf t.info.cap * width P ksize
  live : r ∈ f.live
  header : r ≠ ⟨handle, size⟩
  block : 0 < t.info.cap → r ≠ t.block P

/-- The table `t'` in a new block, and the old block of `t` still there. -/
structure Swapped (P : Payload V) (handle size : Nat) (t t' : Table ksize V) (f : File) : Prop where
  tabled : Tabled P f handle size t'
  grew : Grew t t'
  small : t.info.cap * width P ksize < 2 ^ 64
  header : t.block P ≠ ⟨handle, size⟩
  block : 0 < t.info.cap → t.block P ≠ t'.block P

theorem Tabled.spare (h : Tabled P f handle size t) {r : Range} (hr : f.Admits r)
    (hlen : r.len = newcapOf t.info.cap * width P ksize) : Spare P handle size t r (f.allocAt r hr) :=
  ⟨h.allocAt hr, hlen, List.mem_cons_self, ne_of_apart (hr.2.2 _ h.header),
    fun hpos => ne_of_apart (hr.2.2 _ (h.block hpos))⟩

theorem Spare.free {r : Range} (h : Spare P handle size t r f) : Tabled P (f.free r) handle size t :=
  h.tabled.free h.header h.block

/-- The generator of a call that is alone with the table. -/
theorem Spare.swap {r : Range} (h : Spare P handle size t r f) :
    ∃ ws t', (swapTable handle (width P ksize) ksize r.start (newcapOf t.info.cap) r.len
        (t.info.cap * width P ksize)).eval f = .ok (ws, some (t.info.table, t.info.cap)) ∧
      (∀ x ∈ ws, x.1 + x.2.length ≤ f.len) ∧ t'.block P = r ∧ Swapped P handle size t t' (File.writeAll ws f) := by
  obtain ⟨hlt, hpow, -⟩ := h.tabled.toLaid.newcapOf_spec
  obtain ⟨ws, t', heval, hin, hinfo, hmaps, ht'⟩ :=
    swapTable_step h.tabled hpow hlt (Nat.le_refl _) h.live h.len h.header
  have hblock : t'.block P = r := by rw [Table.block, hinfo, ← h.len]
  rw [← h.len] at heval
  have hin' : ∀ x ∈ ws, x.1 + x.2.length ≤ f.len := by
    intro x hx
    rw [← File.len_writeAll ws f]
    exact ht'.toLaid.within (hin x hx)
  refine ⟨ws, t', heval, hin', hblock, ht', ⟨?_, ?_, ?_, ?_⟩, h.tabled.toLaid.size_lt, h.tabled.distinct, ?_⟩
  · rw [hinfo]
  · rw [hinfo]
  · rw [hinfo]
  · rw [hinfo]
    exact hmaps
  · intro hpos
    rw [hblock]
    exact Ne.symm (h.block hpos)

theorem afterSwap_swapped (r : Range) (t t' : Table ksize V) :
    Prog.Spec (Under w₀ a.stack (Swapped P handle size t t'))
      (afterSwap a (width P ksize) r (.ok (some (t.info.table, t.info.cap)))).run
      (fun _ w => ∃ t', Grew t t' ∧ Under w₀ a.stack (fun f => Tabled P f handle size t') w)
      (fun e w => Failure P a w₀ t e w ∧ Under w₀ a.stack (fun f => Tabled P f handle size t) w)
      fun _ => True := by
  apply Prog.Spec.assume (φ := t.info.cap * width P ksize < 2 ^ 64)
  · intro w hw
    exact hw.1.small
  intro hsmall
  rw [afterSwap, Nat.min_eq_left (by omega)]
  by_cases hpos : 0 < t.info.cap
  · rw [if_pos hpos]
    simp only [Script.run_bind, Script.run_attempt, Script.run_atom, Script.run_pure]
    apply Prog.Spec.bind (attempt_dealloc_under (J := fun f => Grew t t' ∧ Tabled P f handle size t')
      (fun f hf => ⟨hf.grew, hf.tabled⟩)
      (fun f hf _ => ⟨hf.grew, hf.tabled.free hf.header fun _ => hf.block hpos⟩) fun _ _ => trivial)
    intro _
    apply Prog.Spec.pure
    intro w hw
    exact ⟨t', hw.1.1, hw.mono fun f hf => hf.2⟩
  · rw [if_neg hpos]
    apply Prog.Spec.pure
    intro w hw
    exact ⟨t', hw.1.grew, hw.mono fun f hf => hf.tabled⟩

theorem afterSwap_error {r : Range} {e : IoError} (he : IoFailed w₀ e) :
    Prog.Spec (Under w₀ a.stack (Spare P handle size t r)) (afterSwap a (width P ksize) r (.error e)).run
      (fun _ w => ∃ t', Grew t t' ∧ Under w₀ a.stack (fun f => Tabled P f handle size t') w)
      (fun e w => Failure P a w₀ t e w ∧ Under w₀ a.stack (fun f => Tabled P f handle size t) w)
      fun _ => True := by
  simp only [afterSwap, Script.run_bind, Script.run_attempt, Script.run_atom, Script.run_fail]
  apply Prog.Spec.bind (attempt_dealloc_under (J := fun f => Tabled P f handle size t)
    (fun f hf => hf.tabled) (fun f hf _ => hf.free) fun _ _ => trivial)
  intro _
  apply Prog.Spec.fail
  intro w hw
  exact ⟨.inl (.inl he), hw⟩

theorem growInto_spec (r : Range) :
    Prog.Spec (Under w₀ a.stack (Spare P handle size t r))
      (growInto a handle (width P ksize) ksize t.info.cap r.len r).run
      (fun _ w => ∃ t', Grew t t' ∧ Under w₀ a.stack (fun f => Tabled P f handle size t') w)
      (fun e w => Failure P a w₀ t e w ∧ Under w₀ a.stack (fun f => Tabled P f handle size t) w)
      fun _ => True := by
  apply Prog.Spec.assume (φ := t.info.cap * width P ksize < 2 ^ 64)
  · intro w hw
    exact hw.1.tabled.toLaid.size_lt
  intro hfit
  simp only [growInto, Script.run_bind, Script.run_atom, Script.run_lift, checkedMul, if_pos hfit,
    Prog.lift_ok, pure_bind]
  apply Prog.Spec.bind (inplaceGen_under
    (J := fun o f => ∃ t', o = some (t.info.table, t.info.cap) ∧ Swapped P handle size t t' f) ?_
    (fun _ _ => trivial) fun e w he hw => ⟨.inl (.inl he), hw.mono fun f hf => hf.tabled⟩)
  · intro o w hw
    cases hw with
    | inl hw =>
        obtain ⟨_, rfl, ⟨t', rfl, hs⟩, hq⟩ := hw
        exact afterSwap_swapped r t t' w ⟨hs, hq⟩
    | inr hw =>
        obtain ⟨e, rfl, he, hw⟩ := hw
        exact afterSwap_error he w hw
  · intro f hf
    obtain ⟨ws, t', heval, hin, -, hs⟩ := hf.swap
    exact ⟨ws, _, heval, hin, t', rfl, hs⟩

/-- `grow_table` when nobody else acts. -/
theorem growTable_spec : Prog.Spec (Under w₀ a.stack fun f => Tabled P f handle size t)
    (growTable a handle (width P ksize) ksize).run
    (fun _ w => ∃ t', Grew t t' ∧ Under w₀ a.stack (fun f => Tabled P f handle size t') w)
    (fun e w => Failure P a w₀ t e w ∧ Under w₀ a.stack (fun f => Tabled P f handle size t) w)
    fun _ => True := by
  simp only [growTable, Script.run_bind, Script.run_atom, Script.run_lift]
  have hread : Prog.Spec (Under w₀ a.stack fun f => Tabled P f handle size t) (readU64 a.stack (handle + CAP_OFF))
      (fun v w => v = t.info.cap ∧ Under w₀ a.stack (fun f => Tabled P f handle size t) w)
      (fun e w => Failure P a w₀ t e w ∧ Under w₀ a.stack (fun f => Tabled P f handle size t) w) fun _ => True := by
    refine (readU64_under (fun f hf =>
      hf.toLaid.word_in CAP_OFF (by decide)) fun e w he hw => ⟨.inl (.inl he), hw⟩).weaken
      (fun _ h => h) (fun v w hw => ?_) (fun _ _ h => h) fun _ h => h
    exact ⟨hw.1.2.trans hw.1.1.toLaid.cap_word, hw.mono fun f hf => hf.1⟩
  apply Prog.Spec.bind_value hread
  · by_cases hfit : newcapOf t.info.cap * width P ksize < 2 ^ 64
    · rw [checkedMul, if_pos hfit, Prog.lift_ok, pure_bind]
      apply Prog.Spec.bind (alloc_under (J := Spare P handle size t) (fun f r hr hf hlen => hf.spare hr hlen)
        (fun _ _ => trivial) fun e w he hw => ⟨.inl he, hw⟩)
      intro r w hw
      rw [← hw.1.len]
      exact growInto_spec r w hw
    · rw [checkedMul, if_neg hfit]
      apply Prog.Spec.fail
      intro w hw
      exact ⟨.inr ⟨rfl, by omega⟩, hw⟩

/-! ### A new handle block -/

/-- A handle block whose four fields are zero is the empty table. -/
theorem tabled_of_filled (ksize : Nat) {r : Range} {bytes : List UInt8} {f : File} (h : Filled r bytes f)
    (hlen : 48 ≤ bytes.length)
    (hzero : metaOf ((bytes.drop HEADER_SIZE).take 32) = ⟨0, 0, 0, 0⟩) (P : Payload V) :
    Tabled P f r.start r.len ⟨⟨0, 0, 0, 0⟩, fun _ => (.empty : Slot (Key ksize) V)⟩ := by
  have hinside := f.inside r h.live
  refine ⟨⟨h.len ▸ hlen, h.live, ?_, .inl rfl, ?_, ?_, ?_⟩, probed_empty home 0, rfl, rfl⟩
  · show metaOf (f.bytes.read (r.start + HEADER_SIZE) 32) = _
    have hread : ((f.bytes.read r.start bytes.length).drop HEADER_SIZE).take 32 =
        f.bytes.read (r.start + HEADER_SIZE) 32 := Mem.take_drop_read (by simp only [HEADER_SIZE]; omega)
    rw [← hread, h.read, hzero]
  · intro hpos
    exact absurd hpos (Nat.lt_irrefl 0)
  · intro he
    have hstart : 0 = r.start := congrArg Range.start he
    omega
  · intro i hi
    exact absurd hi (Nat.not_lt_zero i)

/-! ### One probe -/

theorem probeCommit_under {σ α : Type} {stride : Nat} {hash : UInt64} {start : σ}
    {inspect : Meta → σ → Nat → List UInt8 → ProbeStep σ α}
    {exhausted : Meta → σ → Except IoError (Batch × α)} {I : File → Prop} {J : α → File → Prop}
    (heval : ∀ f, I f → ∃ ws r, (probe handle stride hash start inspect exhausted).eval f = .ok (ws, r) ∧
      (∀ x ∈ ws, x.1 + x.2.length ≤ f.len) ∧ J r (File.writeAll ws f)) :
    Prog.Spec (Under w₀ a.stack I) (probeCommit a handle stride hash start inspect exhausted).run
      (fun r w => Under w₀ a.stack (J r) w) (fun e w => IoFailed w₀ e ∧ Under w₀ a.stack I w)
      fun _ => True := by
  simp only [probeCommit, Script.run_bind, Script.run_atom, Script.run_lift]
  exact inplaceGen_lift_under heval (fun _ _ => trivial) fun _ _ he hw => ⟨he, hw⟩

/-! ### The insertion -/

section Insert

variable {onHit : Meta → Nat → Except IoError Batch} {put : V → V} {v : V}

/-- A call for `k` returns `r` and leaves `t'`, where `k` has the value `o` of its old value. -/
structure Entered (P : Payload V) (t t' : Table ksize V) (k : Key ksize) (o : Option V → Option V)
    (r : Option (List UInt8)) : Prop where
  answer : ∀ m, Maps t.info.cap t.slots m → r = (m k).map P.enc
  maps : ∀ m, Maps t.info.cap t.slots m → Maps t'.info.cap t'.slots (Function.update m k (o (m k)))
  roomy : Roomy t'

def entered (v : V) (put : V → V) (old : Option V) : Option V := some (old.elim v put)

/-- A table that is not crowded keeps an empty bucket beside the new entry. -/
theorem not_crowded (h : ¬ Crowded t.info.cap t.info.used) :
    0 < t.info.cap ∧ t.info.used + 1 < t.info.cap := by
  simp only [Crowded, not_or] at h
  omega

theorem Inserted.entered (hs : t.Sound) (hc : ¬ Crowded t.info.cap t.info.used) {placed : Placed}
    (h : Inserted P t k v put placed t') :
    (placed = .added ∧ Entered P t t' k (entered v put) none) ∨
      ∃ payload, placed = .present payload ∧ Entered P t t' k (entered v put) (some payload) := by
  obtain ⟨hpos, hroom⟩ := not_crowded hc
  cases h with
  | added habs hb =>
      refine .inl ⟨rfl, fun m hm => ?_, fun m hm => ?_, .inr ?_⟩
      · rw [hm.get_of_absent habs]
        rfl
      · rw [hm.get_of_absent habs]
        exact hb.maps hs hm
      · have hused := hb.used_le
        rw [hb.cap_eq]
        omega
  | @present i old hsought =>
      refine .inr ⟨_, rfl, fun m hm => ?_, fun m hm => ?_, .inr ?_⟩
      · rw [hm.get_of_slot hsought.1 hsought.2]
        rfl
      · rw [hm.get_of_slot hsought.1 hsought.2]
        exact hm.replace hs.probed hsought.1 hsought.2 (put old)
      · show t.info.used < t.info.cap
        omega
  | noRoom hfull =>
      have hempty : ∃ i < t.info.cap, t.slots i = .empty := exists_empty (by rw [← hs.used_eq]; omega)
      obtain ⟨i, hi, he⟩ := hempty
      have hocc := hfull.2 i hi
      rw [he] at hocc
      cases hocc

theorem capFields_under : Prog.Spec (Under w₀ a.stack fun f => Tabled P f handle size t)
    (readFields a.stack (handle + CAP_OFF) 3)
    (fun fields w => fields = [t.info.cap, t.info.len, t.info.used] ∧
      Under w₀ a.stack (fun f => Tabled P f handle size t) w)
    (fun e w => IoFailed w₀ e ∧ Under w₀ a.stack (fun f => Tabled P f handle size t) w) C := by
  refine (readFields_under (fun f hf => hf.toLaid.word_in (CAP_OFF + 16) (by decide))
    fun _ _ he hw => ⟨he, hw⟩).weaken (fun _ h => h) (fun fields w hw => ?_) (fun _ _ h => h) fun _ h => h
  refine ⟨?_, hw.mono fun f hf => hf.1⟩
  have hinfo := hw.1.1.info
  rw [metaOf_read] at hinfo
  rw [hw.1.2, ← hinfo]
  rfl

theorem insertLoop_round (hhit : Hits P ksize onHit put) (attempts : Nat)
    (hc : ¬ Crowded t.info.cap t.info.used) :
    Prog.Spec (Under w₀ a.stack fun f => Tabled P f handle size t)
      (insertLoop a (entryFor P handle k v) onHit (attempts + 1)).run
      (fun r w => ∃ t', Entered P t t' k (entered v put) r ∧
        Under w₀ a.stack (fun f => Tabled P f handle size t') w)
      (fun e w => IoFailed w₀ e ∧ Under w₀ a.stack (fun f => Tabled P f handle size t) w)
      fun _ => True := by
  simp only [insertLoop, Script.run_bind, Script.run_atom]
  apply Prog.Spec.bind_value capFields_under
  simp only [List.getD_cons_zero, List.getD_cons_succ, if_neg hc, Script.run_bind]
  apply Prog.Spec.bind (probeCommit_under (J := fun placed f => ∃ t', Inserted P t k v put placed t' ∧
    t.Sound ∧ Tabled P f handle size t') ?_)
  · intro placed w hw
    obtain ⟨⟨t', hins, hs, ht'⟩, hq⟩ := hw
    cases hins.entered hs hc with
    | inl he =>
        obtain ⟨rfl, he⟩ := he
        refine ⟨fun b hb => ?_, fun e he => (by cases he), fun _ _ => trivial⟩
        cases hb
        exact ⟨t', he, ht', hq⟩
    | inr he =>
        obtain ⟨payload, rfl, he⟩ := he
        refine ⟨fun b hb => ?_, fun e he => (by cases he), fun _ _ => trivial⟩
        cases hb
        exact ⟨t', he, ht', hq⟩
  · intro f hf
    obtain ⟨ws, placed, t', heval, hin, hins, ht'⟩ := insert_step hf hhit k v
    exact ⟨ws, placed, heval, fun x hx => hf.toLaid.within (hin x hx), t', hins, hf.toSound, ht'⟩

/-- What a call that fails leaves: the entries, perhaps in a bigger table. -/
structure Kept (t t' : Table ksize V) : Prop where
  maps : ∀ m, Maps t.info.cap t.slots m → Maps t'.info.cap t'.slots m
  roomy : Roomy t'

theorem Table.Sound.len_le (hs : t.Sound) : t.info.len ≤ t.info.cap := by
  rw [hs.len_eq]
  exact Nat.le_trans (lenOf_le_usedOf _ _) (usedOf_le _ _)

theorem Grew.not_crowded (hg : Grew t t') (h : Tabled P f handle size t) :
    ¬ Crowded t'.info.cap t'.info.used := by
  obtain ⟨-, ⟨e, hpow⟩, hdouble⟩ := h.toLaid.newcapOf_spec
  have hlen := h.toSound.len_le
  have hfour : 4 ≤ newcapOf t.info.cap := by
    rw [hpow, Nat.pow_succ, Nat.pow_succ]
    have hone := Nat.two_pow_pos e
    omega
  rw [hg.cap, hg.used, Crowded]
  omega

theorem roomy_of_not_crowded (h : ¬ Crowded t.info.cap t.info.used) : Roomy t :=
  .inr (Nat.lt_of_succ_lt (BucketTable.not_crowded h).2)

theorem Entered.of_grew {t'' : Table ksize V} {o : Option V → Option V} {r : Option (List UInt8)}
    (hg : Grew t t') (h : Entered P t' t'' k o r) : Entered P t t'' k o r :=
  ⟨fun m hm => h.answer m (hg.maps m hm), fun m hm => h.maps m (hg.maps m hm), h.roomy⟩

/-- The insertion ends in its second round at the latest. -/
theorem insertLoop_spec (hhit : Hits P ksize onHit put) (attempts : Nat) (hroomy : Roomy t) :
    Prog.Spec (Under w₀ a.stack fun f => Tabled P f handle size t)
      (insertLoop a (entryFor P handle k v) onHit (attempts + 2)).run
      (fun r w => ∃ t', Entered P t t' k (entered v put) r ∧
        Under w₀ a.stack (fun f => Tabled P f handle size t') w)
      (fun e w => InsertFailure P a w₀ t e w ∧ ∃ t', Kept t t' ∧
        Under w₀ a.stack (fun f => Tabled P f handle size t') w)
      fun _ => True := by
  have hkept : Kept t t := ⟨fun _ hm => hm, hroomy⟩
  by_cases hc : Crowded t.info.cap t.info.used
  · rw [insertLoop]
    simp only [Script.run_bind, Script.run_atom]
    apply Prog.Spec.bind_value (capFields_under.onError fun e w he => ⟨.inl he.1, t, hkept, he.2⟩)
    simp only [List.getD_cons_zero, List.getD_cons_succ, if_pos hc, Script.run_bind]
    apply Prog.Spec.assume (φ := ∀ t' : Table ksize V, Grew t t' → ¬ Crowded t'.info.cap t'.info.used)
    · intro w hw t' hg
      exact hg.not_crowded hw.1
    intro hfree
    apply (growTable_spec.onError fun e w he => ⟨.inr ⟨hc, he.1⟩, t, hkept, he.2⟩).bind
    intro _
    apply Prog.Spec.exists
    intro t'
    apply Prog.Spec.given
    intro hg
    apply (insertLoop_round hhit attempts (hfree t' hg)).weaken (fun _ h => h)
    · intro r w hw
      obtain ⟨t'', he, hw⟩ := hw
      exact ⟨t'', he.of_grew hg, hw⟩
    · intro e w hw
      exact ⟨.inl hw.1, t', ⟨hg.maps, roomy_of_not_crowded (hfree t' hg)⟩, hw.2⟩
    · intro w hw
      exact hw
  · apply (insertLoop_round hhit (attempts + 1) hc).onError
    intro e w hw
    exact ⟨.inl hw.1, t, hkept, hw.2⟩

end Insert

/-! ### The removal -/

theorem Removed.entered (hs : t.Sound) (hroomy : Roomy t) {r : Option (List UInt8)}
    (h : Removed P t k r t') : Entered P t t' k (fun _ => none) r := by
  cases h with
  | found hsought =>
      refine ⟨fun m hm => ?_, fun m hm => hm.remove hs.probed hsought.1 hsought.2, hroomy⟩
      rw [hm.get_of_slot hsought.1 hsought.2]
      rfl
  | absent habs =>
      refine ⟨fun m hm => ?_, fun m hm => ?_, hroomy⟩
      · rw [hm.get_of_absent habs]
        rfl
      · rw [← hm.get_of_absent habs, Function.update_eq_self]
        exact hm

theorem removeKey_spec (hroomy : Roomy t) :
    Prog.Spec (Under w₀ a.stack fun f => Tabled P f handle size t)
      (removeKey a handle (width P ksize) ksize k.val).run
      (fun r w => ∃ t', Entered P t t' k (fun _ => none) r ∧
        Under w₀ a.stack (fun f => Tabled P f handle size t') w)
      (fun e w => IoFailed w₀ e ∧ Under w₀ a.stack (fun f => Tabled P f handle size t) w)
      fun _ => True := by
  rw [removeKey]
  refine (probeCommit_under (J := fun r f => ∃ t', Entered P t t' k (fun _ => none) r ∧
    Tabled P f handle size t') fun f hf => ?_).weaken (fun _ h => h) (fun r w hw => ?_) (fun _ _ h => h)
    fun _ h => h
  · obtain ⟨ws, r, t', heval, hin, hr, ht'⟩ := remove_step hf k
    exact ⟨ws, r, heval, fun x hx => hf.toLaid.within (hin x hx), t', hr.entered hf.toSound hroomy, ht'⟩
  · obtain ⟨⟨t', he, ht'⟩, hq⟩ := hw
    exact ⟨t', he, ht', hq⟩

/-! ### The lookup -/

def lookupResult (P : Payload V) : Outcome V → Option (List UInt8)
  | .found _ v => some (P.enc v)
  | _ => none

theorem bucket_under {i : Nat} (hi : i < t.info.cap) :
    Prog.Spec (Under w₀ a.stack fun f => Tabled P f handle size t)
      (Prog.lift (checkedOffMul t.info.table i (width P ksize)) >>= fun off =>
        getInto a.stack off (width P ksize))
      (fun buf w => Bucket P buf (t.slots i) ∧ Under w₀ a.stack (fun f => Tabled P f handle size t) w)
      (fun e w => IoFailed w₀ e ∧ Under w₀ a.stack (fun f => Tabled P f handle size t) w) C := by
  apply Prog.Spec.assume (φ := checkedOffMul t.info.table i (width P ksize) = .ok (t.at P i))
  · intro w hw
    exact hw.1.toLaid.checked_at hi
  intro hat
  rw [hat, Prog.lift_ok, pure_bind]
  refine (getInto_under (fun f hf => hf.toLaid.bucket_inside hi) fun _ _ he hw => ⟨he, hw⟩).weaken
    (fun _ h => h) (fun buf w hw => ?_) (fun _ _ h => h) fun _ h => h
  refine ⟨?_, hw.mono fun f hf => hf.1⟩
  rw [hw.1.2]
  exact hw.1.1.stored i hi

theorem lookupFrom_spec (hpow : t.info.cap = 0 ∨ ∃ e, t.info.cap = 2 ^ (e + 2)) {left cur : Nat}
    (tomb : Option Nat) (hcur : left ≠ 0 → cur < t.info.cap) :
    Prog.Spec (Under w₀ a.stack fun f => Tabled P f handle size t)
      (lookupFrom a (width P ksize) ksize t.info.table t.info.cap k.val left cur).run
      (fun r w => r = lookupResult P (seek t.info.cap t.slots k left cur tomb) ∧
        Under w₀ a.stack (fun f => Tabled P f handle size t) w)
      (fun e w => IoFailed w₀ e ∧ Under w₀ a.stack (fun f => Tabled P f handle size t) w)
      fun _ => True := by
  induction left generalizing cur tomb with
  | zero =>
      apply Prog.Spec.pure
      intro w hw
      cases tomb <;> exact ⟨rfl, hw⟩
  | succ left ih =>
      have hlt := hcur (Nat.succ_ne_zero left)
      simp only [lookupFrom, Script.run_bind, Script.run_atom, Script.run_lift]
      rw [← bind_assoc]
      apply (bucket_under hlt).bind
      intro buf
      apply Prog.Spec.given
      intro hbucket
      unfold seek
      cases hs : t.slots cur with
      | empty =>
          rw [hs] at hbucket
          have hstate : getU64 buf 0 = EMPTY := hbucket
          rw [if_pos hstate]
          apply Prog.Spec.pure
          intro w hw
          cases tomb <;> exact ⟨rfl, hw⟩
      | tombstone =>
          rw [hs] at hbucket
          have hstate : getU64 buf 0 = TOMBSTONE := hbucket
          have hmiss : ¬ matchesKey ksize k.val buf := by
            rw [hbucket.matches_iff]
            simp
          rw [if_neg (by rw [hstate]; decide), if_neg hmiss, and_mask (hpow.resolve_left (by omega))]
          exact ih (tomb.or (some cur)) fun _ => next_lt hlt
      | occupied k' v' =>
          rw [hs] at hbucket
          have hbuf : buf = bucketImage P k' v' := hbucket
          rw [if_neg (by rw [hbuf, state_bucketImage]; decide)]
          dsimp only
          by_cases hk : k' = k
          · rw [if_pos ((hbucket.matches_iff k).mpr ⟨v', by rw [hk]⟩), if_pos hk, hbuf, payload_bucketImage]
            apply Prog.Spec.pure
            intro w hw
            exact ⟨rfl, hw⟩
          · have hmiss : ¬ matchesKey ksize k.val buf := by
              rw [hbucket.matches_iff]
              rintro ⟨v₁, h₁⟩
              cases h₁
              exact hk rfl
            rw [if_neg hmiss, if_neg hk, and_mask (hpow.resolve_left (by omega))]
            exact ih tomb fun _ => next_lt hlt

theorem tableFields_under {n : Nat} (hn : n ≤ 4) : Prog.Spec (Under w₀ a.stack fun f => Tabled P f handle size t)
    (readFields a.stack (handle + TABLE_OFF) n)
    (fun fields w => fields = [t.info.table, t.info.cap, t.info.len, t.info.used].take n ∧
      Under w₀ a.stack (fun f => Tabled P f handle size t) w)
    (fun e w => IoFailed w₀ e ∧ Under w₀ a.stack (fun f => Tabled P f handle size t) w) C := by
  have hin : ∀ f : File, Tabled P f handle size t → handle + TABLE_OFF + n * 8 ≤ f.len := by
    intro f hf
    have hin := hf.toLaid.header_inside
    have hsize := hf.size_le
    simp only [TABLE_OFF, HEADER_SIZE]
    omega
  refine (readFields_under hin fun _ _ he hw => ⟨he, hw⟩).weaken (fun _ h => h) (fun fields w hw => ?_)
    (fun _ _ h => h) fun _ h => h
  refine ⟨?_, hw.mono fun f hf => hf.1⟩
  have hinfo := hw.1.1.info
  rw [metaOf_read] at hinfo
  rw [hw.1.2, ← hinfo]
  obtain rfl | rfl | rfl | rfl | rfl : n = 0 ∨ n = 1 ∨ n = 2 ∨ n = 3 ∨ n = 4 := by omega
  all_goals rfl

theorem lookup_spec : Prog.Spec (Under w₀ a.stack fun f => Tabled P f handle size t)
    (lookup a handle (width P ksize) ksize k.val).run
    (fun r w => (∀ m, Maps t.info.cap t.slots m → r = (m k).map P.enc) ∧
      Under w₀ a.stack (fun f => Tabled P f handle size t) w)
    (fun e w => IoFailed w₀ e ∧ Under w₀ a.stack (fun f => Tabled P f handle size t) w)
    fun _ => True := by
  simp only [lookup, Script.run_bind, Script.run_atom]
  apply Prog.Spec.bind_value (tableFields_under (n := 2) (by omega))
  simp only [List.take_succ_cons, List.take_zero, List.getD_cons_zero, List.getD_cons_succ]
  by_cases hcap : t.info.cap = 0
  · rw [if_pos hcap]
    apply Prog.Spec.pure
    intro w hw
    refine ⟨fun m hm => ?_, hw⟩
    rw [hm.get_of_absent fun i hi => by omega]
    rfl
  · rw [if_neg hcap]
    apply Prog.Spec.assume (φ := (∃ e, t.info.cap = 2 ^ (e + 2)) ∧ t.Sound)
    · intro w hw
      exact ⟨hw.1.pow.resolve_left hcap, hw.1.toSound⟩
    intro ⟨hpow, hs⟩
    have hsought := hs.probed.seek k
    rw [and_mask hpow, show (fnv1a k.val).toNat = home k from rfl]
    apply (lookupFrom_spec (.inr hpow) none fun hne => Nat.mod_lt _ (by omega)).weaken (fun _ h => h) _
      (fun _ _ h => h) fun _ h => h
    intro r w hw
    refine ⟨fun m hm => ?_, hw.2⟩
    rw [hw.1]
    cases ho : seek t.info.cap t.slots k t.info.cap (home k % t.info.cap) none with
    | found i v =>
        rw [ho] at hsought
        rw [hm.get_of_slot hsought.1 hsought.2]
        rfl
    | free i wasEmpty =>
        rw [ho] at hsought
        rw [hm.get_of_absent hsought.1]
        rfl
    | full =>
        rw [ho] at hsought
        rw [hm.get_of_absent hsought.1]
        rfl

/-! ### The iterator -/

/-- The entries in the `left` buckets from `idx` on. -/
def entriesFrom (t : Table ksize V) (left idx : Nat) : List (Key ksize × V) :=
  (List.range' idx left).filterMap fun i => (t.slots i).entry

/-- The iterator `it` walks the table `t` and has `left` buckets to go. -/
structure Walking (handle : Nat) (t : Table ksize V) (it : Iter) (left : Nat) : Prop where
  handle : it.handle = handle
  table : it.table = t.info.table
  cap : it.cap = t.info.cap
  len : it.len = t.info.len
  idx : it.idx + left = t.info.cap

/-- What `scan` may say: the next entry, and an iterator behind it, or that none is left. -/
def Scanned (P : Payload V) (handle : Nat) (t : Table ksize V) (left idx : Nat)
    (r : Option (List UInt8) × Iter) : Prop :=
  (r.1 = none ∧ entriesFrom t left idx = []) ∨
    ∃ k v left', left' < left ∧ r.1 = some (bucketImage P k v) ∧ Walking handle t r.2 left' ∧
      entriesFrom t left idx = (k, v) :: entriesFrom t left' r.2.idx

theorem scan_spec {it : Iter} (hhandle : it.handle = handle) (htable : it.table = t.info.table)
    (hcap : it.cap = t.info.cap) (hlen : it.len = t.info.len) {left idx : Nat}
    (hidx : idx + left = t.info.cap) :
    Prog.Spec (Under w₀ a.stack fun f => Tabled P f handle size t) (it.scan a (width P ksize) left idx)
      (fun r w => Scanned P handle t left idx r ∧ Under w₀ a.stack (fun f => Tabled P f handle size t) w)
      (fun e w => IoFailed w₀ e ∧ Under w₀ a.stack (fun f => Tabled P f handle size t) w)
      fun _ => True := by
  induction left generalizing idx with
  | zero =>
      apply Prog.Spec.pure
      intro w hw
      exact ⟨.inl ⟨rfl, rfl⟩, hw⟩
  | succ left ih =>
      rw [Iter.scan, htable, ← bind_assoc]
      apply (bucket_under (by omega)).bind
      intro buf
      apply Prog.Spec.given
      intro hbucket
      have hskip : (t.slots idx).entry = none → entriesFrom t (left + 1) idx = entriesFrom t left (idx + 1) := by
        intro hnone
        rw [entriesFrom, List.range'_succ, List.filterMap_cons, hnone]
        rfl
      have hnext : ∀ r, (t.slots idx).entry = none → Scanned P handle t left (idx + 1) r →
          Scanned P handle t (left + 1) idx r := by
        intro r hnone hr
        rw [Scanned, hskip hnone]
        cases hr with
        | inl hr => exact .inl hr
        | inr hr =>
            obtain ⟨k, v, left', hlt, hrest⟩ := hr
            exact .inr ⟨k, v, left', by omega, hrest⟩
      cases hs : t.slots idx with
      | empty =>
          rw [hs] at hbucket hnext
          have hstate : getU64 buf 0 = EMPTY := hbucket
          rw [if_neg (by rw [hstate]; decide)]
          exact (ih (by omega)).weaken (fun _ h => h) (fun r w hw => ⟨hnext r rfl hw.1, hw.2⟩)
            (fun _ _ h => h) fun _ h => h
      | tombstone =>
          rw [hs] at hbucket hnext
          have hstate : getU64 buf 0 = TOMBSTONE := hbucket
          rw [if_neg (by rw [hstate]; decide)]
          exact (ih (by omega)).weaken (fun _ h => h) (fun r w hw => ⟨hnext r rfl hw.1, hw.2⟩)
            (fun _ _ h => h) fun _ h => h
      | occupied k v =>
          rw [hs] at hbucket
          have hbuf : buf = bucketImage P k v := hbucket
          rw [if_pos (by rw [hbuf, state_bucketImage])]
          apply Prog.Spec.pure
          intro w hw
          refine ⟨.inr ⟨k, v, left, Nat.lt_succ_self left, by rw [hbuf], ?_, ?_⟩, hw⟩
          · exact ⟨hhandle, rfl, hcap, hlen, by show idx + 1 + left = _; omega⟩
          · rw [entriesFrom, List.range'_succ, List.filterMap_cons, hs]
            rfl

theorem next_spec {it : Iter} {left : Nat} (hit : Walking handle t it left) (msg : String) :
    Prog.Spec (Under w₀ a.stack fun f => Tabled P f handle size t) (it.next a (width P ksize) msg)
      (fun r w => Scanned P handle t left it.idx r ∧ Under w₀ a.stack (fun f => Tabled P f handle size t) w)
      (fun e w => IoFailed w₀ e ∧ Under w₀ a.stack (fun f => Tabled P f handle size t) w)
      fun _ => True := by
  have hidx := hit.idx
  rw [Iter.next, hit.cap]
  by_cases hlt : it.idx < t.info.cap
  · rw [if_pos hlt, hit.handle]
    apply Prog.Spec.bind_value (tableFields_under (n := 3) (by omega))
    rw [if_pos (by rw [hit.table, hit.len]; rfl), show t.info.cap - it.idx = left by omega]
    exact scan_spec hit.handle hit.table hit.cap hit.len hidx
  · rw [if_neg hlt]
    apply Prog.Spec.pure
    intro w hw
    have hzero : left = 0 := by omega
    subst hzero
    exact ⟨.inl ⟨rfl, rfl⟩, hw⟩

/-- The iterator yields every entry that is left, once each and in the order of the buckets. -/
theorem drain_spec {it : Iter} {left calls : Nat} (hit : Walking handle t it left) (hcalls : left < calls)
    (msg : String) :
    Prog.Spec (Under w₀ a.stack fun f => Tabled P f handle size t) (it.drain a (width P ksize) msg calls)
      (fun items w => items = (entriesFrom t left it.idx).map (fun x => bucketImage P x.1 x.2) ∧
        Under w₀ a.stack (fun f => Tabled P f handle size t) w)
      (fun e w => IoFailed w₀ e ∧ Under w₀ a.stack (fun f => Tabled P f handle size t) w)
      fun _ => True := by
  induction calls generalizing it left with
  | zero => omega
  | succ calls ih =>
      rw [Iter.drain]
      apply (next_spec hit msg).bind
      intro r
      apply Prog.Spec.given
      intro hr
      obtain ⟨item, it'⟩ := r
      cases hr with
      | inl hr =>
          obtain ⟨hitem, hempty⟩ := hr
          have hnone : item = none := hitem
          subst hnone
          apply Prog.Spec.pure
          intro w hw
          exact ⟨by rw [hempty]; rfl, hw⟩
      | inr hr =>
          obtain ⟨k, v, left', hlt, hitem, hit', hentries⟩ := hr
          have hsome : item = some (bucketImage P k v) := hitem
          subst hsome
          apply Prog.Spec.bind_value (ih hit' (by omega))
          apply Prog.Spec.pure
          intro w hw
          exact ⟨by rw [hentries]; rfl, hw⟩

end BucketTable

end BStackRaii
