import BStackRaii.Model.Gen
/-!
# The primitive steps under faults

One rule for each primitive step, whatever fails: what it takes to run it from `P`, and what a fault or
a refusal leaves. Two invariants are then carried over the steps. `Grown` is what an operation may do to
a file before it commits: hand out blocks, and write nothing that was there. `Under` says of one file
whatever an operation needs.
-/

namespace BStackRaii

/-! ### The errors of the environment -/

/-- An I/O step failed, in a run from `w₀`. -/
def IoFailed (w₀ : World) (e : IoError) : Prop := e = ioFault ∧ ¬ w₀.Quiet

/-- On the way from `w₀` to `w` the places the allocator tried have run out, or the last of them is no
place for a block of `size` bytes. -/
def NoRoom (a : Allocator) (size : Nat) (w₀ w : World) : Prop :=
  w.picks = [] ∨ ∃ used p, w₀.picks = used ++ p :: w.picks ∧ ¬ (w.files a.stack).Admits ⟨p, size⟩

/-- The errors of the environment for a call that allocates blocks of `size` bytes: a failed I/O step,
or an allocation that found no place. -/
def EnvError (a : Allocator) (size : Nat) (w₀ : World) (e : IoError) (w : World) : Prop :=
  IoFailed w₀ e ∨ (e = outOfSpace ∧ NoRoom a size w₀ w)

/-- `w'` is `w` once an allocation of `size` bytes was refused. -/
inductive Refused (a : Allocator) (size : Nat) (w : World) : World → Prop
  | noPlace (h : w.picks = []) : Refused a size w w.tick
  | badPlace {p : Nat} {ps : List Nat} (hp : w.picks = p :: ps) (h : ¬ (w.files a.stack).Admits ⟨p, size⟩) :
      Refused a size w { w.tick with picks := ps }

section Refused

variable {a : Allocator} {size : Nat} {w w' : World}

theorem Refused.files (h : Refused a size w w') : w'.files = w.files := by cases h <;> rfl

theorem Refused.freed (h : Refused a size w w') : w'.freed = w.freed := by cases h <;> rfl

theorem Refused.quiet (h : Refused a size w w') (hq : w.Quiet) : w'.Quiet := by
  cases h with
  | noPlace h => rwa [hq.tick_eq]
  | badPlace hp h =>
      have hrest : w.tick.Quiet := by rwa [hq.tick_eq]
      exact hrest

theorem Refused.picks (h : Refused a size w w') : w'.picks <:+ w.picks := by
  cases h with
  | noPlace h => exact List.suffix_rfl
  | badPlace hp h =>
      rw [hp]
      exact List.suffix_cons _ _

theorem Refused.noRoom {w₀ : World} (h : Refused a size w w') (hpicks : w.picks <:+ w₀.picks) :
    NoRoom a size w₀ w' := by
  cases h with
  | noPlace h => exact .inl h
  | @badPlace p ps hp h =>
      obtain ⟨used, hused⟩ := hpicks
      exact .inr ⟨used, p, by rw [← hused, hp], h⟩

end Refused

/-! ### One rule for each step -/

section Rules

variable {P : World → Prop} {E : IoError → World → Prop} {C : World → Prop} {a : Allocator} {k off n size : Nat}
  {data : List UInt8} {r : Range}

theorem getInto_rule {Q : List UInt8 → World → Prop} (hin : ∀ w, P w → off + n ≤ (w.files k).len)
    (hok : ∀ w, P w → Q ((w.files k).bytes.read off n) w.tick) (hfault : ∀ w, P w → w.Faulty → E ioFault w.tick) :
    Prog.Spec P (getInto k off n) Q E C := by
  apply Prog.Spec.volatile
  · intro w b t hw ht
    split at ht
    · cases ht
    · split at ht
      · cases ht
        exact hok w hw
      · cases ht
  · intro w e t hw ht
    split at ht
    · rename_i hf
      cases ht
      exact hfault w hw hf
    · split at ht
      · cases ht
      · rename_i hbound
        exact absurd (hin w hw) hbound

theorem readU64_rule {Q : Nat → World → Prop} (hin : ∀ w, P w → off + 8 ≤ (w.files k).len)
    (hok : ∀ w, P w → Q ((w.files k).bytes.word off) w.tick) (hfault : ∀ w, P w → w.Faulty → E ioFault w.tick) :
    Prog.Spec P (readU64 k off) Q E C :=
  (getInto_rule (Q := fun buf w => Q (leNat buf) w) hin hok hfault).bind fun _ => Prog.Spec.pure fun _ h => h

theorem alloc_rule {Q : Range → World → Prop}
    (hok : ∀ w r (h : (w.files a.stack).Admits r), P w → r.len = size → Q r (w.tick.grant a.stack r h))
    (hfault : ∀ w, P w → w.Faulty → E ioFault w.tick) (hrefused : ∀ w w', P w → Refused a size w w' → E outOfSpace w')
    (hC : ∀ w, P w → C w) : Prog.Spec P (alloc a size) Q E C := by
  apply Prog.Spec.durable
  · intro w r t hw ht
    split at ht
    · cases ht
    · split at ht
      · cases ht
      · split at ht
        · rename_i hadmits
          cases ht
          exact hok w _ hadmits hw rfl
        · cases ht
  · intro w e t hw ht
    split at ht
    · rename_i hf
      cases ht
      exact hfault w hw hf
    · split at ht
      · rename_i hp
        cases ht
        exact hrefused w _ hw (.noPlace hp)
      · rename_i hp
        split at ht
        · cases ht
        · rename_i hadmits
          cases ht
          exact hrefused w _ hw (.badPlace hp hadmits)
  · exact hC

/-- A durable step with a check: a fault and a failed check lead to `fail w`. -/
theorem checked_rule {α : Type} {Q : α → World → Prop} {check : World → Prop} [DecidablePred check] {x : α}
    {e : IoError} {act fail : World → World} (hok : ∀ w, P w → check w → Q x (act w))
    (hfault : ∀ w, P w → w.Faulty → E ioFault (fail w)) (hno : ∀ w, P w → ¬ check w → E e (fail w))
    (hC : ∀ w, P w → C w) :
    Prog.Spec P (Prog.durable fun w => if w.Faulty then (.error ioFault, fail w)
      else if check w then (.ok x, act w) else (.error e, fail w)) Q E C := by
  apply Prog.Spec.durable
  · intro w _ t hw ht
    split at ht
    · cases ht
    · split at ht
      · rename_i hcheck
        cases ht
        exact hok w hw hcheck
      · cases ht
  · intro w _ t hw ht
    split at ht
    · rename_i hf
      cases ht
      exact hfault w hw hf
    · split at ht
      · cases ht
      · rename_i hcheck
        cases ht
        exact hno w hw hcheck
  · exact hC

theorem set_rule {Q : Unit → World → Prop} (hin : ∀ w, P w → off + data.length ≤ (w.files k).len)
    (hok : ∀ w, P w → Q () (w.tick.store k off data)) (hfault : ∀ w, P w → w.Faulty → E ioFault w.tick)
    (hC : ∀ w, P w → C w) : Prog.Spec P (set k off data) Q E C :=
  checked_rule (fun w hw _ => hok w hw) hfault (fun w hw hno => absurd (hin w hw) hno) hC

/-- A batch lands as a whole or changes nothing. -/
theorem setBatched_rule {ws : Batch} {Q : Unit → World → Prop}
    (hin : ∀ w, P w → ∀ x ∈ ws, x.1 + x.2.length ≤ (w.files k).len)
    (hok : ∀ w, P w → Q () (World.storeAll k ws w.tick)) (hfault : ∀ w, P w → w.Faulty → E ioFault w.tick)
    (hC : ∀ w, P w → C w) : Prog.Spec P (setBatched k ws) Q E C :=
  checked_rule (fun w hw _ => hok w hw) hfault (fun w hw hno => absurd (hin w hw) hno) hC

/-- A range given to `dealloc` is taken, or it comes to nothing. -/
theorem deallocRange_rule {Q : Unit → World → Prop}
    (hok : ∀ w, P w → w.Takes a.stack r → Q () (w.tick.release a.stack r))
    (hfault : ∀ w, P w → w.Faulty → E ioFault (w.tick.handIn a.stack r))
    (hrefused : ∀ w, P w → ¬ w.Takes a.stack r → E notAllocated (w.tick.handIn a.stack r))
    (hC : ∀ w, P w → C w) : Prog.Spec P (deallocRange a r) Q E C :=
  checked_rule hok hfault hrefused hC

theorem dealloc_rule {Q : Unit → World → Prop} (hlive : ∀ w, P w → r ∈ (w.files a.stack).live)
    (hok : ∀ w, P w → Q () (w.tick.release a.stack r))
    (hfault : ∀ w, P w → w.Faulty → E ioFault (w.tick.handIn a.stack r)) (hC : ∀ w, P w → C w) :
    Prog.Spec P (deallocRange a r) Q E C :=
  deallocRange_rule (fun w hw _ => hok w hw) hfault (fun w hw hno => absurd (.of_live (hlive w hw)) hno) hC

theorem attempt_dealloc_rule {Q : World → Prop} (hok : ∀ w, P w → w.Takes a.stack r → Q (w.tick.release a.stack r))
    (hkept : ∀ w, P w → Q (w.tick.handIn a.stack r)) (hC : ∀ w, P w → C w) :
    Prog.Spec P (Prog.attempt (deallocRange a r)) (fun _ => Q) E C :=
  .attempt (deallocRange_rule hok (fun w hw _ => hkept w hw) (fun w hw _ => hkept w hw) hC)

end Rules

/-! ### What happened since a world -/

/-- `w` comes behind `w₀`: the oracles have gone on, and nothing was put back. -/
structure Onward (w₀ w : World) : Prop where
  quiet : w₀.Quiet → w.Quiet
  picks : w.picks <:+ w₀.picks

namespace Onward

variable {w₀ w w' : World} {a : Allocator} {size : Nat}

theorem refl (w : World) : Onward w w := ⟨id, List.suffix_rfl⟩

theorem trans (h : Onward w₀ w) (h' : Onward w w') : Onward w₀ w' := ⟨h'.quiet ∘ h.quiet, h'.picks.trans h.picks⟩

theorem skip (h : Onward w₀ w) (n : Nat) : Onward w₀ (w.skip n) := by
  refine ⟨fun hq => ?_, h.picks⟩
  rw [(h.quiet hq).skip_eq]
  exact h.quiet hq

theorem tick (h : Onward w₀ w) : Onward w₀ w.tick := by
  rw [World.tick_eq_skip]
  exact h.skip 1

theorem grant (h : Onward w₀ w) {k : Nat} {r : Range} {hr : (w.files k).Admits r} : Onward w₀ (w.grant k r hr) :=
  ⟨h.quiet, (List.tail_suffix _).trans h.picks⟩

theorem fault (h : Onward w₀ w) (hf : w.Faulty) : IoFailed w₀ ioFault :=
  ⟨rfl, fun hq => (h.quiet hq).not_faulty hf⟩

theorem refused (h : Onward w₀ w) (hw : Refused a size w w') : Onward w₀ w' ∧ EnvError a size w₀ outOfSpace w' :=
  ⟨⟨fun hq => hw.quiet (h.quiet hq), hw.picks.trans h.picks⟩, .inr ⟨rfl, hw.noRoom h.picks⟩⟩

end Onward

/-! ### Blocks handed out -/

/-- `w` is `w₀` with the blocks `rs` handed out in file `k`, the newest first, and nothing else
changed. -/
structure Grown (k : Nat) (rs : List Range) (w₀ w : World) : Prop where
  live : (w.files k).live = rs ++ (w₀.files k).live
  bytes : ∀ r ∈ (w₀.files k).live, ∀ x, r.start ≤ x → x < r.stop →
    (w.files k).bytes x = (w₀.files k).bytes x
  len : (w₀.files k).len ≤ (w.files k).len
  others : ∀ j, j ≠ k → w.files j = w₀.files j
  freed : w.freed = w₀.freed
  onward : Onward w₀ w

namespace Grown

variable {k : Nat} {rs : List Range} {w₀ w : World}

theorem refl (k : Nat) (w : World) : Grown k [] w w :=
  ⟨rfl, fun _ _ _ _ _ => rfl, Nat.le_refl _, fun _ _ => rfl, rfl, .refl w⟩

theorem tick (h : Grown k rs w₀ w) : Grown k rs w₀ w.tick :=
  ⟨h.live, h.bytes, h.len, h.others, h.freed, h.onward.tick⟩

theorem handIn (h : Grown k rs w₀ w) (j : Nat) (r : Range) : Grown k rs w₀ (w.handIn j r) :=
  ⟨h.live, h.bytes, h.len, h.others, h.freed, h.onward.quiet, h.onward.picks⟩

theorem fault (h : Grown k rs w₀ w) (hf : w.Faulty) : IoFailed w₀ ioFault := h.onward.fault hf

theorem refused {a : Allocator} {size : Nat} {w' : World} (h : Grown k rs w₀ w) (hw : Refused a size w w') :
    EnvError a size w₀ outOfSpace w' ∧ Grown k rs w₀ w' := by
  obtain ⟨honward, he⟩ := h.onward.refused hw
  refine ⟨he, ?_, ?_, ?_, ?_, hw.freed.trans h.freed, honward⟩
  all_goals rw [hw.files]
  · exact h.live
  · exact h.bytes
  · exact h.len
  · exact h.others

theorem mem_live (h : Grown k rs w₀ w) {r : Range} (hr : r ∈ (w₀.files k).live) :
    r ∈ (w.files k).live := by
  rw [h.live]
  exact List.mem_append_right rs hr

theorem read_eq (h : Grown k rs w₀ w) {r : Range} (hr : r ∈ (w₀.files k).live) {off n : Nat}
    (hlo : r.start ≤ off) (hhi : off + n ≤ r.stop) :
    (w.files k).bytes.read off n = (w₀.files k).bytes.read off n :=
  Mem.read_congr fun x hx hx' => h.bytes r hr x (Nat.le_trans hlo hx) (Nat.lt_of_lt_of_le hx' hhi)

theorem inside (h : Grown k rs w₀ w) {r : Range} (hr : r ∈ (w₀.files k).live) :
    r.stop ≤ (w.files k).len := ((w.files k).inside r (h.mem_live hr)).2

theorem grant {a : Allocator} {r : Range} (h : Grown a.stack rs w₀ w)
    (hr : (w.files a.stack).Admits r) : Grown a.stack (r :: rs) w₀ (w.grant a.stack r hr) := by
  refine ⟨?_, fun b hb x hx hx' => ?_, ?_, fun j hj => ?_, h.freed, h.onward.grant⟩
  · rw [World.files_grant_same, File.live_allocAt, h.live, List.cons_append]
  · rw [World.files_grant_same, File.bytes_allocAt]
    have hapart := (hr.2.2 b (h.mem_live hb)).2
    rw [← h.bytes b hb x hx hx']
    rcases hapart with hapart | hapart
    · exact Mem.write_of_lt (Nat.lt_of_lt_of_le hx' hapart)
    · exact Mem.write_of_ge (by rw [List.length_replicate]; exact Nat.le_trans hapart hx)
  · rw [World.files_grant_same, File.len_allocAt]
    exact Nat.le_trans h.len (Nat.le_max_left _ _)
  · rw [World.files_grant_ne hj, h.others j hj]

end Grown

section Grown

variable {w₀ : World} {C : World → Prop} {k off : Nat} {rs : List Range} {r : Range}

theorem getInto_grown {n : Nat} (hr : r ∈ (w₀.files k).live) (hlo : r.start ≤ off) (hhi : off + n ≤ r.stop) :
    Prog.Spec (Grown k rs w₀) (getInto k off n)
      (fun b w => b = (w₀.files k).bytes.read off n ∧ Grown k rs w₀ w)
      (fun e w => IoFailed w₀ e ∧ Grown k rs w₀ w) C :=
  getInto_rule (fun _ hw => Nat.le_trans hhi (hw.inside hr)) (fun _ hw => ⟨hw.read_eq hr hlo hhi, hw.tick⟩)
    fun _ hw hf => ⟨hw.fault hf, hw.tick⟩

theorem readU64_grown (hr : r ∈ (w₀.files k).live) (hlo : r.start ≤ off) (hhi : off + 8 ≤ r.stop) :
    Prog.Spec (Grown k rs w₀) (readU64 k off)
      (fun v w => v = (w₀.files k).bytes.word off ∧ Grown k rs w₀ w)
      (fun e w => IoFailed w₀ e ∧ Grown k rs w₀ w) C :=
  readU64_rule (fun _ hw => Nat.le_trans hhi (hw.inside hr))
    (fun _ hw => ⟨congrArg leNat (hw.read_eq hr hlo hhi), hw.tick⟩) fun _ hw hf => ⟨hw.fault hf, hw.tick⟩

theorem alloc_grown {a : Allocator} (size : Nat) (hC : ∀ w, Grown a.stack rs w₀ w → C w) :
    Prog.Spec (Grown a.stack rs w₀) (alloc a size)
      (fun r w => r.len = size ∧ 16 ≤ r.start ∧ r.stop < 2 ^ 64 ∧ Grown a.stack (r :: rs) w₀ w)
      (fun e w => EnvError a size w₀ e w ∧ Grown a.stack rs w₀ w) C :=
  alloc_rule (fun _ _ h hw hsize => ⟨hsize, h.1, h.2.1, hw.tick.grant h⟩)
    (fun _ hw hf => ⟨.inl (hw.fault hf), hw.tick⟩) (fun _ _ hw href => hw.refused href) hC

end Grown

/-! ### One file -/

/-- File `k` satisfies `I`, in a run from `w₀`. -/
def Under (w₀ : World) (k : Nat) (I : File → Prop) (w : World) : Prop := I (w.files k) ∧ Onward w₀ w

section Under

variable {w₀ w : World} {k off : Nat} {I J : File → Prop} {C : World → Prop} {E : IoError → World → Prop}
  {data : List UInt8} {r : Range}

theorem Under.refl (h : I (w.files k)) : Under w k I w := ⟨h, .refl w⟩

theorem Under.mono (h : Under w₀ k I w) (hIJ : ∀ f, I f → J f) : Under w₀ k J w := ⟨hIJ _ h.1, h.2⟩

theorem Under.given {φ : Prop} (h : Under w₀ k (fun f => φ ∧ I f) w) : φ ∧ Under w₀ k I w := ⟨h.1.1, h.1.2, h.2⟩

theorem Under.skip (h : Under w₀ k I w) (n : Nat) : Under w₀ k I (w.skip n) := ⟨h.1, h.2.skip n⟩

theorem Under.tick (h : Under w₀ k I w) : Under w₀ k I w.tick := ⟨h.1, h.2.tick⟩

theorem Under.handIn (h : Under w₀ k I w) (j : Nat) (r : Range) : Under w₀ k I (w.handIn j r) :=
  ⟨h.1, h.2.quiet, h.2.picks⟩

theorem Under.fault (h : Under w₀ k I w) (hno : ¬ w.Quiet) : IoFailed w₀ ioFault :=
  ⟨rfl, fun hq => hno (h.2.quiet hq)⟩

theorem Under.faulty (h : Under w₀ k I w) (hf : w.Faulty) : IoFailed w₀ ioFault := h.2.fault hf

theorem Under.store (h : Under w₀ k I w) (hJ : J ((w.files k).write off data)) :
    Under w₀ k J (w.store k off data) :=
  ⟨World.files_store_same (w := w) ▸ hJ, h.2.quiet, h.2.picks⟩

theorem Under.storeAll {ws : Batch} (h : Under w₀ k I w) (hJ : J (File.writeAll ws (w.files k))) :
    Under w₀ k J (World.storeAll k ws w) := by
  refine ⟨?_, fun hq => ?_, ?_⟩
  · rw [World.files_storeAll]
    exact hJ
  · show (World.storeAll k ws w).faults = []
    rw [World.faults_storeAll]
    exact h.2.quiet hq
  · rw [World.picks_storeAll]
    exact h.2.picks

theorem Under.release (h : Under w₀ k I w) (hJ : J ((w.files k).free r)) : Under w₀ k J (w.release k r) :=
  ⟨World.files_release_same (w := w) ▸ hJ, h.2.quiet, h.2.picks⟩

theorem Under.refused {a : Allocator} {size : Nat} {w' : World} (h : Under w₀ k I w) (hw : Refused a size w w') :
    EnvError a size w₀ outOfSpace w' ∧ Under w₀ k I w' := by
  obtain ⟨honward, he⟩ := h.2.refused hw
  exact ⟨he, hw.files ▸ h.1, honward⟩

theorem getInto_under {n : Nat} (hin : ∀ f, I f → off + n ≤ f.len)
    (hE : ∀ e w, IoFailed w₀ e → Under w₀ k I w → E e w) :
    Prog.Spec (Under w₀ k I) (getInto k off n)
      (fun b w => Under w₀ k (fun f => I f ∧ b = f.bytes.read off n) w) E C :=
  getInto_rule (fun _ hw => hin _ hw.1) (fun _ hw => ⟨⟨hw.1, rfl⟩, hw.2.tick⟩)
    fun _ hw hf => hE _ _ (hw.faulty hf) hw.tick

theorem readU64_under (hin : ∀ f, I f → off + 8 ≤ f.len)
    (hE : ∀ e w, IoFailed w₀ e → Under w₀ k I w → E e w) :
    Prog.Spec (Under w₀ k I) (readU64 k off)
      (fun v w => Under w₀ k (fun f => I f ∧ v = f.bytes.word off) w) E C :=
  readU64_rule (fun _ hw => hin _ hw.1) (fun _ hw => ⟨⟨hw.1, rfl⟩, hw.2.tick⟩)
    fun _ hw hf => hE _ _ (hw.faulty hf) hw.tick

theorem File.Admits.start_ne {f : File} {r b : Range} (hr : f.Admits r) (hpos : 0 < r.len) (hb : b ∈ f.live)
    (hbpos : 0 < b.len) : r.start ≠ b.start := by
  intro heq
  have hapart := (hr.2.2 b hb).2
  simp only [Range.stop] at hapart
  omega

theorem alloc_under {a : Allocator} {size : Nat} {J : Range → File → Prop}
    (hgrant : ∀ f r (h : f.Admits r), I f → r.len = size → J r (f.allocAt r h))
    (hC : ∀ w, Under w₀ a.stack I w → C w)
    (hE : ∀ e w, EnvError a size w₀ e w → Under w₀ a.stack I w → E e w) :
    Prog.Spec (Under w₀ a.stack I) (alloc a size) (fun r w => Under w₀ a.stack (J r) w) E C := by
  refine alloc_rule (fun w r h hw hsize => ?_) (fun w hw hf => hE _ _ (.inl (hw.faulty hf)) hw.tick)
    (fun w w' hw href => ?_) hC
  · have hfiles := World.files_grant_same (w := w.tick) (h := h)
    exact ⟨hfiles.symm ▸ hgrant _ _ h hw.1 hsize, hw.2.tick.grant⟩
  · obtain ⟨he, hkept⟩ := hw.refused href
    exact hE _ _ he hkept

theorem set_under (hin : ∀ f, I f → off + data.length ≤ f.len)
    (hwrite : ∀ f, I f → J (f.write off data)) (hC : ∀ w, Under w₀ k I w → C w)
    (hE : ∀ e w, IoFailed w₀ e → Under w₀ k I w → E e w) :
    Prog.Spec (Under w₀ k I) (set k off data) (fun _ w => Under w₀ k J w) E C :=
  set_rule (fun _ hw => hin _ hw.1) (fun _ hw => hw.tick.store (hwrite _ hw.1))
    (fun _ hw hf => hE _ _ (hw.faulty hf) hw.tick) hC

theorem setBatched_under {ws : Batch} (hin : ∀ f, I f → ∀ x ∈ ws, x.1 + x.2.length ≤ f.len)
    (hwrite : ∀ f, I f → J (File.writeAll ws f)) (hC : ∀ w, Under w₀ k I w → C w)
    (hE : ∀ e w, IoFailed w₀ e → Under w₀ k I w → E e w) :
    Prog.Spec (Under w₀ k I) (setBatched k ws) (fun _ w => Under w₀ k J w) E C :=
  setBatched_rule (fun _ hw => hin _ hw.1) (fun _ hw => hw.tick.storeAll (hwrite _ hw.1))
    (fun _ hw hf => hE _ _ (hw.faulty hf) hw.tick) hC

/-- A generator whose batch leaves the file in `J`. -/
theorem inplaceGen_under {α : Type} {g : Gen (Batch × α)} {J : α → File → Prop}
    (heval : ∀ f, I f → ∃ ws a, g.eval f = .ok (ws, a) ∧ (∀ x ∈ ws, x.1 + x.2.length ≤ f.len) ∧
      J a (File.writeAll ws f)) (hC : ∀ w, Under w₀ k I w → C w)
    (hE : ∀ e w, IoFailed w₀ e → Under w₀ k I w → E e w) :
    Prog.Spec (Under w₀ k I) (inplaceGen k g)
      (fun r w => (∃ a, r = .ok a ∧ Under w₀ k (J a) w) ∨ ∃ e, r = .error e ∧ IoFailed w₀ e ∧ Under w₀ k I w)
      E C := by
  intro w hw
  obtain ⟨ws, a, hg, hin, hJ⟩ := heval _ hw.1
  obtain ⟨n, ⟨hno, hrun | hrun⟩ | hrun⟩ := inplaceGen_cases hg hin
  · rw [hrun]
    refine ⟨fun r hr => ?_, fun e he => ?_, fun t ht => ?_⟩
    · cases hr
    · cases he
      exact hE _ _ (hw.fault hno) (hw.skip n)
    · cases List.mem_singleton.mp ht
      exact hC w hw
  · rw [hrun]
    refine ⟨fun r hr => ?_, fun e he => ?_, fun t ht => ?_⟩
    · cases hr
      exact .inr ⟨_, rfl, hw.fault hno, hw.skip n⟩
    · cases he
    · cases List.mem_singleton.mp ht
      exact hC w hw
  · rw [hrun]
    refine ⟨fun r hr => ?_, fun e he => ?_, fun t ht => ?_⟩
    · cases hr
      exact .inl ⟨a, rfl, (hw.skip n).storeAll hJ⟩
    · cases he
    · cases List.mem_singleton.mp ht
      exact hC w hw

theorem inplaceGen_lift_under {α : Type} {g : Gen (Batch × α)} {J : α → File → Prop}
    (heval : ∀ f, I f → ∃ ws a, g.eval f = .ok (ws, a) ∧ (∀ x ∈ ws, x.1 + x.2.length ≤ f.len) ∧
      J a (File.writeAll ws f)) (hC : ∀ w, Under w₀ k I w → C w)
    (hE : ∀ e w, IoFailed w₀ e → Under w₀ k I w → E e w) :
    Prog.Spec (Under w₀ k I) (inplaceGen k g >>= fun r => Prog.lift r) (fun a w => Under w₀ k (J a) w) E C := by
  apply Prog.Spec.bind (inplaceGen_under heval hC hE)
  intro r w hw
  cases hw with
  | inl hw =>
      obtain ⟨a, rfl, hw⟩ := hw
      exact (Prog.Spec.pure (P := Under w₀ k (J a)) (Q := fun b => Under w₀ k (J b)) fun _ h => h) w hw
  | inr hw =>
      obtain ⟨e, rfl, he, hw⟩ := hw
      exact (Prog.Spec.fail (P := Under w₀ k I) fun _ h => hE _ _ he h) w hw

theorem dealloc_under {a : Allocator} (hmem : ∀ f, I f → r ∈ f.live) (hfree : ∀ f, I f → J (f.free r))
    (hC : ∀ w, Under w₀ a.stack I w → C w) (hE : ∀ e w, IoFailed w₀ e → Under w₀ a.stack I w → E e w) :
    Prog.Spec (Under w₀ a.stack I) (deallocRange a r) (fun _ w => Under w₀ a.stack J w) E C :=
  dealloc_rule (fun _ hw => hmem _ hw.1) (fun _ hw => hw.tick.release (hfree _ hw.1))
    (fun _ hw hf => hE _ _ (hw.faulty hf) (hw.tick.handIn _ _)) hC

theorem attempt_dealloc_under {a : Allocator} (hskip : ∀ f, I f → J f) (hfree : ∀ f, I f → r ∈ f.live → J (f.free r))
    (hC : ∀ w, Under w₀ a.stack I w → C w) :
    Prog.Spec (Under w₀ a.stack I) (Prog.attempt (deallocRange a r)) (fun _ w => Under w₀ a.stack J w) E C := by
  refine attempt_dealloc_rule (fun w hw _ => hw.tick.release ?_) (fun _ hw => (hw.tick.handIn _ _).mono hskip) hC
  by_cases hmem : r ∈ (w.files a.stack).live
  · exact hfree _ hw.1 hmem
  · rw [World.files_tick, File.free_of_not_live hmem]
    exact hskip _ hw.1

end Under

/-! ### Frees whose errors are discarded -/

/-- The elements of `xs` whose step does not fail, when step by step the faults are `fs`. -/
def landed {α : Type} : List Bool → List α → List α
  | _, [] => []
  | fs, x :: xs => if fs.head? = some true then landed fs.tail xs else x :: landed fs.tail xs

theorem landed_sublist {α : Type} (fs : List Bool) (xs : List α) : (landed fs xs).Sublist xs := by
  induction xs generalizing fs with
  | nil => exact List.Sublist.refl []
  | cons x xs ih =>
      simp only [landed]
      split
      · exact (ih fs.tail).cons x
      · exact (ih fs.tail).cons_cons x

theorem landed_map {α β : Type} (f : α → β) (fs : List Bool) (xs : List α) :
    landed fs (xs.map f) = (landed fs xs).map f := by
  induction xs generalizing fs with
  | nil => rfl
  | cons x xs ih =>
      simp only [List.map_cons, landed, ih]
      split <;> rfl

/-- Where no step fails from here on, all of them land. -/
theorem landed_all {α : Type} {fs : List Bool} (hfs : true ∉ fs) (xs : List α) : landed fs xs = xs := by
  induction xs generalizing fs with
  | nil => rfl
  | cons x xs ih =>
      have hhead : fs.head? ≠ some true := fun h => hfs (List.mem_of_head? h)
      rw [landed, if_neg hhead, ih fun h => hfs (List.mem_of_mem_tail h)]

/-- `w'` is `w` with the blocks `rs` of file `k` freed, and nothing else changed. -/
structure Freed (k : Nat) (rs : List Range) (w w' : World) : Prop where
  live : ∀ r, r ∈ (w'.files k).live ↔ r ∈ (w.files k).live ∧ r ∉ rs
  bytes : (w'.files k).bytes = (w.files k).bytes
  len : (w'.files k).len = (w.files k).len
  others : ∀ j, j ≠ k → w'.files j = w.files j
  freed : w'.freed = w.freed ++ rs.map fun r => (k, r)

namespace Freed

variable {k : Nat} {rs : List Range} {w w' : World}

theorem refl (k : Nat) (w : World) : Freed k [] w w :=
  ⟨by simp, rfl, rfl, fun _ _ => rfl, by simp⟩

theorem tick (h : Freed k rs w.tick w') : Freed k rs w w' := ⟨h.live, h.bytes, h.len, h.others, h.freed⟩

theorem handIn {j : Nat} {r : Range} (h : Freed k rs (w.handIn j r) w') : Freed k rs w w' :=
  ⟨h.live, h.bytes, h.len, h.others, h.freed⟩

theorem cons {r : Range} (h : Freed k rs (w.release k r) w') : Freed k (r :: rs) w w' := by
  refine ⟨fun b => ?_, ?_, ?_, fun j hj => ?_, ?_⟩
  · rw [h.live, World.files_release_same, File.live_free, (w.files k).nodup_live.mem_erase_iff, List.mem_cons]
    tauto
  · rw [h.bytes, World.files_release_same, File.bytes_free]
  · rw [h.len, World.files_release_same, File.len_free]
  · rw [h.others j hj, World.files_release_ne hj]
  · rw [h.freed, World.freed_release, List.append_assoc]
    rfl

end Freed

theorem freeOne_run {a : Allocator} {r : Range} {w : World} (hr : r ∈ (w.files a.stack).live) :
    (Prog.attempt (deallocRange a r) >>= fun _ => pure () : Io Unit) w =
      ⟨.ok (), if w.Faulty then w.tick.handIn a.stack r else w.tick.release a.stack r, [w]⟩ := by
  have hrun := deallocRange_if hr
  by_cases hf : w.Faulty
  · rw [if_pos hf] at hrun ⊢
    rw [Prog.bind_of_ok (Prog.attempt_apply _ w), hrun]
    rfl
  · rw [if_neg hf] at hrun ⊢
    rw [Prog.bind_of_ok (Prog.attempt_apply _ w), hrun]
    rfl

/-- Free each of the blocks, whatever becomes of the others. -/
theorem freeEach_run {a : Allocator} {rs : List Range} (hnodup : rs.Nodup) {w : World}
    (hlive : ∀ r ∈ rs, r ∈ (w.files a.stack).live) :
    ∃ w' cuts, Prog.forEach (fun r => do
        let _ ← Prog.attempt (deallocRange a r)
        pure ()) rs w = ⟨.ok (), w', cuts⟩ ∧ Freed a.stack (landed w.faults rs) w w' := by
  induction rs generalizing w with
  | nil => exact ⟨w, [], rfl, Freed.refl a.stack w⟩
  | cons r rs ih =>
      obtain ⟨hr, hnodup⟩ := List.nodup_cons.mp hnodup
      have hone := freeOne_run (a := a) (hlive r List.mem_cons_self)
      by_cases hf : w.Faulty
      · rw [if_pos hf] at hone
        obtain ⟨w', cuts, hrun, hfreed⟩ := ih hnodup (w := w.tick.handIn a.stack r) fun b hb =>
          hlive b (List.mem_cons_of_mem r hb)
        refine ⟨w', [w] ++ cuts, ?_, ?_⟩
        · rw [Prog.forEach, Prog.bind_of_ok hone, hrun]
          rfl
        · have hskip : landed w.faults (r :: rs) = landed w.faults.tail rs := if_pos hf
          rw [hskip]
          exact hfreed.handIn.tick
      · rw [if_neg hf] at hone
        have hstill : ∀ b ∈ rs, b ∈ ((w.tick.release a.stack r).files a.stack).live := by
          intro b hb
          have hne : b ≠ r := by
            rintro rfl
            exact hr hb
          rw [World.files_release_same, File.live_free]
          exact (List.mem_erase_of_ne hne).mpr (hlive b (List.mem_cons_of_mem r hb))
        obtain ⟨w', cuts, hrun, hfreed⟩ := ih hnodup hstill
        refine ⟨w', [w] ++ cuts, ?_, ?_⟩
        · rw [Prog.forEach, Prog.bind_of_ok hone, hrun]
          rfl
        · have hland : landed w.faults (r :: rs) = r :: landed w.faults.tail rs := if_neg hf
          rw [hland]
          exact hfreed.cons.tick

end BStackRaii
