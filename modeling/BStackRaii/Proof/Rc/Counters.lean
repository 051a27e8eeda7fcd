import BStackRaii.Model.Rc
import Mathlib.Algebra.Group.Defs
/-!
# Counters and what they count

A `Ledger` lists what the handles of an object and the half-done calls on it hold: strong counts,
the duty to free the data block, weak counts, the duty to free the control block, and the fields.
`Agrees` says that the file agrees with a ledger. There is one lemma for each atomic step: it takes
a ledger the file agrees with to the next one.
-/

namespace BStackRaii

/-! ### The closures of the counter helpers -/

namespace Refcount

variable {buf : List UInt8}

theorem leNat_leBytes_word {v : Nat} (hv : v < 2 ^ 64) : leNat (leBytes 8 v) = v :=
  leNat_leBytes (by simpa using hv)

/-- An addition counts up, or reports an overflow and leaves the counter as it was. -/
theorem addCounter_cases (buf : List UInt8) :
    (∃ bytes, addCounter 1 buf = (bytes, leNat buf, false) ∧ bytes.length = 8 ∧
      leNat bytes = 1 + leNat buf) ∨ addCounter 1 buf = (buf, leNat buf, true) := by
  simp only [addCounter]
  split
  case isTrue h =>
    left
    exact ⟨_, rfl, length_leBytes 8 _, by rw [leNat_leBytes_word h, Nat.add_comm]⟩
  case isFalse => exact .inr rfl

theorem subCounter_pos (hlen : buf.length = 8) (h : 0 < leNat buf) :
    ∃ bytes, subCounter 1 buf = (bytes, leNat buf, false) ∧ bytes.length = 8 ∧
      1 + leNat bytes = leNat buf := by
  have hlt : leNat buf < 2 ^ 64 := by simpa [hlen] using leNat_lt buf
  have hword : leNat (leBytes 8 (leNat buf - 1)) = leNat buf - 1 := leNat_leBytes_word (by omega)
  refine ⟨_, if_pos h, length_leBytes 8 _, ?_⟩
  rw [hword]
  omega

/-- The increment of an upgrade: a counter at zero stays there. -/
theorem bumpCounter_cases (buf : List UInt8) :
    (leNat buf = 0 ∧ bumpCounter buf = (buf, none, false)) ∨
    (0 < leNat buf ∧ ∃ bytes, bumpCounter buf = (bytes, some (1 + leNat buf), false) ∧
      bytes.length = 8 ∧ leNat bytes = 1 + leNat buf) ∨
    bumpCounter buf = (buf, none, true) := by
  simp only [bumpCounter]
  split
  case isTrue h => exact .inl ⟨h, rfl⟩
  case isFalse hne =>
    split
    case isTrue h =>
      right
      left
      refine ⟨Nat.pos_of_ne_zero hne, _, by rw [Nat.add_comm], length_leBytes 8 _, ?_⟩
      rw [Nat.add_comm, leNat_leBytes_word (by omega)]
    case isFalse => exact .inr (.inr rfl)

end Refcount

/-! ### Ledgers -/

/-- What a handle, a call, or all of them together hold. -/
@[ext] structure Ledger where
  strong : Nat
  last : Nat
  weak : Nat
  closing : Nat
  moved : Nat

namespace Ledger

instance : Add Ledger :=
  ⟨fun x y => ⟨x.strong + y.strong, x.last + y.last, x.weak + y.weak, x.closing + y.closing,
    x.moved + y.moved⟩⟩

instance : Zero Ledger := ⟨⟨0, 0, 0, 0, 0⟩⟩

variable (x y : Ledger)

@[simp] theorem strong_add : (x + y).strong = x.strong + y.strong := rfl

@[simp] theorem last_add : (x + y).last = x.last + y.last := rfl

@[simp] theorem weak_add : (x + y).weak = x.weak + y.weak := rfl

@[simp] theorem closing_add : (x + y).closing = x.closing + y.closing := rfl

@[simp] theorem moved_add : (x + y).moved = x.moved + y.moved := rfl

@[simp] theorem strong_zero : (0 : Ledger).strong = 0 := rfl

@[simp] theorem last_zero : (0 : Ledger).last = 0 := rfl

@[simp] theorem weak_zero : (0 : Ledger).weak = 0 := rfl

@[simp] theorem closing_zero : (0 : Ledger).closing = 0 := rfl

@[simp] theorem moved_zero : (0 : Ledger).moved = 0 := rfl

instance : AddCommMonoid Ledger where
  add_assoc x y z := by ext <;> simp only [strong_add, last_add, weak_add, closing_add, moved_add, Nat.add_assoc]
  zero_add x := by ext <;> simp
  add_zero x := by ext <;> simp
  add_comm x y := by ext <;> simp only [strong_add, last_add, weak_add, closing_add, moved_add, Nat.add_comm]
  nsmul := nsmulRec

/-- The weak count the strong owners hold together, until the data block is freed. -/
def phantom : Nat := (if 0 < x.strong then 1 else 0) + x.last

def watchers : Nat := x.weak + x.phantom

def keep : Nat := (if 0 < x.watchers then 1 else 0) + x.closing

variable {x y}

theorem watchers_eq (hweak : x.weak = y.weak) (hphantom : x.phantom = y.phantom) :
    x.watchers = y.watchers := by
  simp only [watchers, hweak, hphantom]

theorem keep_eq (hwatchers : x.watchers = y.watchers) (hclosing : x.closing = y.closing) :
    x.keep = y.keep := by
  simp only [keep, hwatchers, hclosing]

theorem phantom_of_strong (h : 0 < x.strong) : x.phantom = 1 + x.last := by
  rw [phantom, if_pos h]

theorem phantom_of_none (h : x.strong = 0) : x.phantom = x.last := by
  rw [phantom, if_neg (by omega), Nat.zero_add]

theorem keep_of_watchers (h : 0 < x.watchers) : x.keep = 1 + x.closing := by
  rw [keep, if_pos h]

theorem keep_of_none (h : x.watchers = 0) : x.keep = x.closing := by
  rw [keep, if_neg (by omega), Nat.zero_add]

theorem keep_pos (h : 0 < x.watchers) : 0 < x.keep := by
  rw [keep_of_watchers h]
  omega

theorem watchers_of_strong (h : 0 < x.strong) : 0 < x.watchers := by
  rw [watchers, phantom_of_strong h]
  omega

theorem watchers_of_last (h : 0 < x.last) : 0 < x.watchers := by
  rw [watchers, phantom]
  omega

theorem watchers_of_weak (h : 0 < x.weak) : 0 < x.watchers := Nat.add_pos_left h _

end Ledger

/-- The counters of a control block. -/
inductive Counter where
  | strong
  | weak

namespace Counter

abbrev off : Counter → Nat
  | strong => CTRL_STRONG_OFFSET
  | weak => CTRL_WEAK_OFFSET

abbrev count (L : Ledger) : Counter → Nat
  | strong => L.strong
  | weak => L.watchers

abbrev other : Counter → Counter
  | strong => weak
  | weak => strong

end Counter

/-- The shape of an object: two different blocks, the second one a control block. -/
structure WellFormed (o : BStackRc) : Prop where
  distinct : o.data ≠ o.ctrl
  size : o.ctrl.len = CONTROL_SIZE
  placed : 0 < o.ctrl.start
  addressable : o.ctrl.start + CONTROL_SIZE < 2 ^ 64

/-- The file and the frees so far agree with the ledger `L`. -/
structure Agrees (a : Allocator) (o : BStackRc) (L : Ledger) (freed : List (Nat × Range))
    (w : World) : Prop where
  quiet : w.Quiet
  data_freed : freed.count (a.stack, o.data) + L.phantom = 1
  ctrl_freed : freed.count (a.stack, o.ctrl) + L.keep = 1
  data_live : 0 < L.phantom → o.data ∈ (w.files a.stack).live
  ctrl_live : 0 < L.keep → o.ctrl ∈ (w.files a.stack).live
  strong : 0 < L.keep → (w.files a.stack).bytes.word (o.ctrl.start + CTRL_STRONG_OFFSET) = L.strong
  weak : 0 < L.keep → (w.files a.stack).bytes.word (o.ctrl.start + CTRL_WEAK_OFFSET) = L.watchers
  forward : 0 < L.keep →
    (w.files a.stack).bytes.word (o.ctrl.start + CTRL_DATA_OFFSET) = o.data.start
  moved : L.moved ≤ freed.count (a.stack, o.data)

namespace Agrees

variable {a : Allocator} {o : BStackRc} {L : Ledger} {freed : List (Nat × Range)} {w : World}

theorem bounds (hA : Agrees a o L freed w) (hwf : WellFormed o) (h : 0 < L.keep) :
    16 ≤ o.ctrl.start ∧ o.ctrl.start + CONTROL_SIZE ≤ (w.files a.stack).len ∧
      (w.files a.stack).len < 2 ^ 64 := by
  obtain ⟨hge, hstop⟩ := (w.files a.stack).inside _ (hA.ctrl_live h)
  rw [Range.stop, hwf.size] at hstop
  exact ⟨hge, hstop, (w.files a.stack).addressable⟩

/-! ### Steps that rewrite a counter -/

theorem rewrite (hA : Agrees a o L freed w) {off : Nat} {buf : List UInt8} {L' : Ledger}
    (hstrong : 0 < L.keep →
      ((w.files a.stack).bytes.write off buf).word (o.ctrl.start + CTRL_STRONG_OFFSET) = L'.strong)
    (hweak : 0 < L.keep →
      ((w.files a.stack).bytes.write off buf).word (o.ctrl.start + CTRL_WEAK_OFFSET) = L'.watchers)
    (hforward : 0 < L.keep →
      ((w.files a.stack).bytes.write off buf).word (o.ctrl.start + CTRL_DATA_OFFSET) = o.data.start)
    (hphantom : L'.phantom = L.phantom) (hkeep : L'.keep = L.keep) (hmoved : L'.moved = L.moved) :
    Agrees a o L' freed (w.store a.stack off buf) where
  quiet := hA.quiet
  data_freed := hphantom ▸ hA.data_freed
  ctrl_freed := hkeep ▸ hA.ctrl_freed
  data_live := by
    rw [World.live_store, hphantom]
    exact hA.data_live
  ctrl_live := by
    rw [World.live_store, hkeep]
    exact hA.ctrl_live
  strong := by
    rw [World.files_store_same, hkeep]
    exact hstrong
  weak := by
    rw [World.files_store_same, hkeep]
    exact hweak
  forward := by
    rw [World.files_store_same, hkeep]
    exact hforward
  moved := hmoved ▸ hA.moved

theorem counter (hA : Agrees a o L freed w) (hk : 0 < L.keep) (c : Counter) :
    (w.files a.stack).bytes.word (o.ctrl.start + c.off) = c.count L := by
  cases c with
  | strong => exact hA.strong hk
  | weak => exact hA.weak hk

theorem store_counter (hA : Agrees a o L freed w) (c : Counter) {buf : List UInt8} (hlen : buf.length = 8)
    {L' : Ledger} (hword : leNat buf = c.count L') (hother : c.other.count L' = c.other.count L)
    (hphantom : L'.phantom = L.phantom) (hkeep : L'.keep = L.keep) (hmoved : L'.moved = L.moved) :
    Agrees a o L' freed (w.store a.stack (o.ctrl.start + c.off) buf) := by
  have hwritten : ((w.files a.stack).bytes.write (o.ctrl.start + c.off) buf).word (o.ctrl.start + c.off) =
      c.count L' := by
    rw [Mem.word, Mem.read_write_eq _ _ hlen, hword]
  have hkept : 0 < L.keep →
      ((w.files a.stack).bytes.write (o.ctrl.start + c.off) buf).word (o.ctrl.start + c.other.off) =
        c.other.count L' := by
    intro hk
    rw [Mem.word_write_disjoint, hA.counter hk, hother]
    cases c <;> simp only [Counter.off, CTRL_STRONG_OFFSET, CTRL_WEAK_OFFSET] <;> omega
  have hforward : 0 < L.keep →
      ((w.files a.stack).bytes.write (o.ctrl.start + c.off) buf).word (o.ctrl.start + CTRL_DATA_OFFSET) =
        o.data.start := by
    intro hk
    rw [Mem.word_write_disjoint, hA.forward hk]
    cases c <;> simp only [Counter.off, CTRL_STRONG_OFFSET, CTRL_WEAK_OFFSET, CTRL_DATA_OFFSET] <;> omega
  cases c with
  | strong => exact hA.rewrite (fun _ => hwritten) hkept hforward hphantom hkeep hmoved
  | weak => exact hA.rewrite hkept (fun _ => hwritten) hforward hphantom hkeep hmoved

theorem store_same (hA : Agrees a o L freed w) (hk : 0 < L.keep) (c : Counter) :
    Agrees a o L freed (w.store a.stack (o.ctrl.start + c.off)
      ((w.files a.stack).bytes.read (o.ctrl.start + c.off) 8)) :=
  hA.store_counter c (Mem.length_read _ _ _) (hA.counter hk c) rfl rfl rfl rfl

theorem read_counter (hA : Agrees a o L freed w) (hk : 0 < L.keep) (c : Counter) :
    leNat ((w.files a.stack).bytes.read (o.ctrl.start + c.off) 8) = c.count L :=
  hA.counter hk c

section Steps

variable (hwf : WellFormed o) {B : Ledger}
include hwf

theorem process_counter (hA : Agrees a o L freed w) (hk : 0 < L.keep) (c : Counter) {α : Type}
    (f : List UInt8 → List UInt8 × α) :
    process a.stack (o.ctrl.start + c.off) (o.ctrl.start + c.off + 8) f w =
      ⟨.ok (f ((w.files a.stack).bytes.read (o.ctrl.start + c.off) 8)).2,
        w.store a.stack (o.ctrl.start + c.off) (f ((w.files a.stack).bytes.read (o.ctrl.start + c.off) 8)).1, [w]⟩ := by
  obtain ⟨-, hstop, -⟩ := hA.bounds hwf hk
  apply process_run hA.quiet
  cases c <;>
    simp only [CONTROL_SIZE, CTRL_DATA_OFFSET, Counter.off, CTRL_STRONG_OFFSET, CTRL_WEAK_OFFSET] at hstop ⊢ <;> omega

theorem add_strong (hA : Agrees a o L freed w) (h : 0 < L.strong) :
    ∃ prev overflow w',
      process a.stack (o.ctrl.start + CTRL_STRONG_OFFSET) (o.ctrl.start + CTRL_STRONG_OFFSET + 8)
        (Refcount.addCounter 1) w = ⟨.ok (prev, overflow), w', [w]⟩ ∧ w'.freed = w.freed ∧
      Agrees a o (if overflow then L else ⟨1, 0, 0, 0, 0⟩ + L) freed w' := by
  have hk := Ledger.keep_pos (Ledger.watchers_of_strong h)
  rw [hA.process_counter hwf hk .strong]
  rcases Refcount.addCounter_cases
    ((w.files a.stack).bytes.read (o.ctrl.start + CTRL_STRONG_OFFSET) 8) with
    ⟨bytes, heq, hlen, hword⟩ | heq <;> rw [heq]
  · rw [hA.read_counter hk .strong] at hword
    have hphantom : (⟨1, 0, 0, 0, 0⟩ + L : Ledger).phantom = L.phantom := by
      rw [Ledger.phantom_of_strong h, Ledger.phantom_of_strong (Nat.add_pos_left Nat.one_pos _)]
      simp
    have hwatchers := Ledger.watchers_eq (Nat.zero_add L.weak) hphantom
    exact ⟨_, false, _, rfl, rfl, hA.store_counter .strong hlen hword hwatchers hphantom
      (Ledger.keep_eq hwatchers (Nat.zero_add _)) (Nat.zero_add _)⟩
  · exact ⟨_, true, _, rfl, rfl, hA.store_same hk .strong⟩

theorem add_weak (hA : Agrees a o L freed w) (h : 0 < L.watchers) :
    ∃ prev overflow w',
      process a.stack (o.ctrl.start + CTRL_WEAK_OFFSET) (o.ctrl.start + CTRL_WEAK_OFFSET + 8)
        (Refcount.addCounter 1) w = ⟨.ok (prev, overflow), w', [w]⟩ ∧ w'.freed = w.freed ∧
      Agrees a o (if overflow then L else ⟨0, 0, 1, 0, 0⟩ + L) freed w' := by
  have hk := Ledger.keep_pos h
  rw [hA.process_counter hwf hk .weak]
  rcases Refcount.addCounter_cases
    ((w.files a.stack).bytes.read (o.ctrl.start + CTRL_WEAK_OFFSET) 8) with
    ⟨bytes, heq, hlen, hword⟩ | heq <;> rw [heq]
  · rw [hA.read_counter hk .weak] at hword
    have hphantom : (⟨0, 0, 1, 0, 0⟩ + L : Ledger).phantom = L.phantom := by
      simp only [Ledger.phantom, Ledger.strong_add, Ledger.last_add, Nat.zero_add]
    have hwatchers : (⟨0, 0, 1, 0, 0⟩ + L : Ledger).watchers = 1 + L.watchers := by
      simp only [Ledger.watchers, hphantom, Ledger.weak_add, Nat.add_assoc]
    have hkeep : (⟨0, 0, 1, 0, 0⟩ + L : Ledger).keep = L.keep := by
      rw [Ledger.keep_of_watchers h, Ledger.keep_of_watchers (by omega)]
      simp
    exact ⟨_, false, _, rfl, rfl, hA.store_counter .weak hlen (hword.trans hwatchers.symm) (Nat.zero_add _)
      hphantom hkeep (Nat.zero_add _)⟩
  · exact ⟨_, true, _, rfl, rfl, hA.store_same hk .weak⟩

/-- A strong handle is given up. The last one leaves the data block to be freed. -/
theorem sub_strong (hA : Agrees a o (⟨1, 0, 0, 0, 0⟩ + B) freed w) :
    ∃ prev w',
      process a.stack (o.ctrl.start + CTRL_STRONG_OFFSET) (o.ctrl.start + CTRL_STRONG_OFFSET + 8)
        (Refcount.subCounter 1) w = ⟨.ok (prev, false), w', [w]⟩ ∧ w'.freed = w.freed ∧
      Agrees a o (if prev = 1 then ⟨0, 1, 0, 0, 0⟩ + B else B) freed w' := by
  have hone : 0 < (⟨1, 0, 0, 0, 0⟩ + B : Ledger).strong := Nat.add_pos_left Nat.one_pos _
  have hk := Ledger.keep_pos (Ledger.watchers_of_strong hone)
  obtain ⟨bytes, heq, hlen, hword⟩ := Refcount.subCounter_pos (Mem.length_read _ _ _)
    (hone.trans_eq (hA.read_counter hk .strong).symm)
  rw [hA.process_counter hwf hk .strong, heq]
  rw [hA.read_counter hk .strong] at hword
  refine ⟨_, _, rfl, rfl, ?_⟩
  rw [hA.read_counter hk .strong]
  have hbytes : leNat bytes = B.strong := by
    simp only [Ledger.strong_add] at hword
    omega
  have hbefore := Ledger.phantom_of_strong hone
  split
  case isTrue hlast =>
    have hzero : B.strong = 0 := by
      simp only [Ledger.strong_add] at hlast
      omega
    have hphantom : (⟨0, 1, 0, 0, 0⟩ + B : Ledger).phantom = (⟨1, 0, 0, 0, 0⟩ + B : Ledger).phantom := by
      rw [hbefore, Ledger.phantom_of_none (by simp [hzero])]
      simp
    have hwatchers := Ledger.watchers_eq (x := ⟨0, 1, 0, 0, 0⟩ + B) (y := ⟨1, 0, 0, 0, 0⟩ + B) rfl hphantom
    exact hA.store_counter .strong hlen (hbytes.trans (Nat.zero_add _).symm) hwatchers hphantom
      (Ledger.keep_eq hwatchers rfl) rfl
  case isFalse hmore =>
    have hpos : 0 < B.strong := by
      simp only [Ledger.strong_add] at hmore
      omega
    have hphantom : B.phantom = (⟨1, 0, 0, 0, 0⟩ + B : Ledger).phantom := by
      rw [hbefore, Ledger.phantom_of_strong hpos]
      simp
    have hwatchers := Ledger.watchers_eq (x := B) (y := ⟨1, 0, 0, 0, 0⟩ + B) (Nat.zero_add _).symm hphantom
    exact hA.store_counter .strong hlen hbytes hwatchers hphantom
      (Ledger.keep_eq hwatchers (Nat.zero_add _).symm) (Nat.zero_add _).symm

/-- `try_unwrap`: the sole strong handle leaves the data block to be moved out. -/
theorem swap_strong (hA : Agrees a o (⟨1, 0, 0, 0, 0⟩ + B) freed w) :
    ∃ unwrapped w',
      compareSwap a.stack (o.ctrl.start + CTRL_STRONG_OFFSET) (leBytes 8 1) (leBytes 8 0) w =
        ⟨.ok unwrapped, w', [w]⟩ ∧ w'.freed = w.freed ∧
      Agrees a o (if unwrapped then ⟨0, 1, 0, 0, 0⟩ + B else ⟨1, 0, 0, 0, 0⟩ + B) freed w' := by
  have hone : 0 < (⟨1, 0, 0, 0, 0⟩ + B : Ledger).strong := Nat.add_pos_left Nat.one_pos _
  have hk := Ledger.keep_pos (Ledger.watchers_of_strong hone)
  obtain ⟨-, hstop, -⟩ := hA.bounds hwf hk
  rw [compareSwap_run hA.quiet (by
    rw [length_leBytes]
    simp only [CONTROL_SIZE, CTRL_DATA_OFFSET, CTRL_STRONG_OFFSET] at hstop ⊢
    omega)]
  split
  case isTrue hsole =>
    refine ⟨true, _, rfl, rfl, ?_⟩
    have hzero : B.strong = 0 := by
      have hread := hA.read_counter hk .strong
      rw [length_leBytes] at hsole
      rw [hsole, Refcount.leNat_leBytes_word (by decide)] at hread
      simp only [Ledger.strong_add] at hread
      omega
    have hphantom : (⟨0, 1, 0, 0, 0⟩ + B : Ledger).phantom = (⟨1, 0, 0, 0, 0⟩ + B : Ledger).phantom := by
      rw [Ledger.phantom_of_strong hone, Ledger.phantom_of_none (by simp [hzero])]
      simp
    have hwatchers := Ledger.watchers_eq (x := ⟨0, 1, 0, 0, 0⟩ + B) (y := ⟨1, 0, 0, 0, 0⟩ + B) rfl hphantom
    have hword : leNat (leBytes 8 0) = (⟨0, 1, 0, 0, 0⟩ + B : Ledger).strong := by
      rw [Refcount.leNat_leBytes_word (by decide), Ledger.strong_add, hzero]
    exact hA.store_counter .strong (length_leBytes 8 0) hword hwatchers hphantom
      (Ledger.keep_eq hwatchers rfl) rfl
  case isFalse => exact ⟨false, _, rfl, rfl, hA⟩

/-- A weak handle, or the phantom, is given up. The last one leaves the control block to be freed. -/
theorem sub_weak {m : Nat} (hA : Agrees a o (⟨0, 0, 1, 0, m⟩ + B) freed w) :
    ∃ prev w',
      process a.stack (o.ctrl.start + CTRL_WEAK_OFFSET) (o.ctrl.start + CTRL_WEAK_OFFSET + 8)
        (Refcount.subCounter 1) w = ⟨.ok (prev, false), w', [w]⟩ ∧ w'.freed = w.freed ∧
      Agrees a o (if prev = 1 then ⟨0, 0, 0, 1, m⟩ + B else ⟨0, 0, 0, 0, m⟩ + B) freed w' := by
  have hpos : 0 < (⟨0, 0, 1, 0, m⟩ + B : Ledger).watchers :=
    Ledger.watchers_of_weak (Nat.add_pos_left Nat.one_pos _)
  have hk := Ledger.keep_pos hpos
  have hphantom : ∀ c, (⟨0, 0, 0, c, m⟩ + B : Ledger).phantom = (⟨0, 0, 1, 0, m⟩ + B : Ledger).phantom :=
    fun _ => rfl
  have hwatchers : ∀ c, (⟨0, 0, 1, 0, m⟩ + B : Ledger).watchers =
      1 + (⟨0, 0, 0, c, m⟩ + B : Ledger).watchers := by
    intro c
    simp only [Ledger.watchers, hphantom c, Ledger.weak_add]
    omega
  obtain ⟨bytes, heq, hlen, hword⟩ := Refcount.subCounter_pos (Mem.length_read _ _ _)
    (hpos.trans_eq (hA.read_counter hk .weak).symm)
  rw [hA.process_counter hwf hk .weak, heq]
  have hread := (hA.read_counter hk .weak).trans (hwatchers 0)
  rw [hread] at hword
  have hbytes : leNat bytes = (⟨0, 0, 0, 0, m⟩ + B : Ledger).watchers := Nat.add_left_cancel hword
  refine ⟨_, _, rfl, rfl, ?_⟩
  rw [hread]
  have hbefore := Ledger.keep_of_watchers hpos
  split
  case isTrue hlast =>
    have hzero : (⟨0, 0, 0, 1, m⟩ + B : Ledger).watchers = 0 := by
      rw [show (⟨0, 0, 0, 1, m⟩ + B : Ledger).watchers = (⟨0, 0, 0, 0, m⟩ + B : Ledger).watchers from rfl]
      omega
    have hkeep : (⟨0, 0, 0, 1, m⟩ + B : Ledger).keep = (⟨0, 0, 1, 0, m⟩ + B : Ledger).keep := by
      rw [hbefore, Ledger.keep_of_none hzero]
      simp
    exact hA.store_counter .weak hlen hbytes rfl (hphantom 1) hkeep rfl
  case isFalse hmore =>
    have hkeep : (⟨0, 0, 0, 0, m⟩ + B : Ledger).keep = (⟨0, 0, 1, 0, m⟩ + B : Ledger).keep := by
      rw [hbefore, Ledger.keep_of_watchers (by omega)]
      simp
    exact hA.store_counter .weak hlen hbytes rfl (hphantom 0) hkeep rfl

theorem bump_strong (hA : Agrees a o L freed w) (hk : 0 < L.keep) :
    ∃ result overflow w',
      process a.stack (o.ctrl.start + CTRL_STRONG_OFFSET) (o.ctrl.start + CTRL_STRONG_OFFSET + 8)
        Refcount.bumpCounter w = ⟨.ok (result, overflow), w', [w]⟩ ∧ w'.freed = w.freed ∧
      Agrees a o (if overflow ∨ result = none then L else ⟨1, 0, 0, 0, 0⟩ + L) freed w' := by
  rw [hA.process_counter hwf hk .strong]
  rcases Refcount.bumpCounter_cases
    ((w.files a.stack).bytes.read (o.ctrl.start + CTRL_STRONG_OFFSET) 8) with
    ⟨-, heq⟩ | ⟨hpos, bytes, heq, hlen, hword⟩ | heq <;> rw [heq]
  · exact ⟨none, false, _, rfl, rfl, hA.store_same hk .strong⟩
  · rw [hA.read_counter hk .strong] at hword hpos
    have hphantom : (⟨1, 0, 0, 0, 0⟩ + L : Ledger).phantom = L.phantom := by
      rw [Ledger.phantom_of_strong hpos, Ledger.phantom_of_strong (Nat.add_pos_left Nat.one_pos _)]
      simp
    have hwatchers := Ledger.watchers_eq (Nat.zero_add L.weak) hphantom
    exact ⟨some _, false, _, rfl, rfl, hA.store_counter .strong hlen hword hwatchers hphantom
      (Ledger.keep_eq hwatchers (Nat.zero_add _)) (Nat.zero_add _)⟩
  · exact ⟨none, true, _, rfl, rfl, hA.store_same hk .strong⟩

/-! ### Reads -/

theorem load_strong (hA : Agrees a o L freed w) (hk : 0 < L.keep) :
    readU64 a.stack (o.ctrl.start + CTRL_STRONG_OFFSET) w = ⟨.ok L.strong, w, []⟩ := by
  obtain ⟨-, hstop, -⟩ := hA.bounds hwf hk
  rw [readU64_run hA.quiet, hA.strong hk]
  simp only [CONTROL_SIZE, CTRL_DATA_OFFSET, CTRL_STRONG_OFFSET] at hstop ⊢
  omega

theorem load_forward (hA : Agrees a o L freed w) (h : 0 < L.watchers) :
    readU64 a.stack (o.ctrl.start + CTRL_DATA_OFFSET) w = ⟨.ok o.data.start, w, []⟩ := by
  have hk := Ledger.keep_pos h
  obtain ⟨-, hstop, -⟩ := hA.bounds hwf hk
  rw [readU64_run hA.quiet, hA.forward hk]
  simp only [CONTROL_SIZE] at hstop
  omega

/-! ### Steps that free a block -/

omit hwf in
theorem load_data (hA : Agrees a o L freed w) (h : 0 < L.last) :
    ∃ bytes, getInto a.stack o.data.start o.data.len w = ⟨.ok bytes, w, []⟩ := by
  have hlive := hA.data_live (Nat.add_pos_right _ h)
  exact ⟨_, getInto_run hA.quiet ((w.files a.stack).inside _ hlive).2⟩

/-- The last owner frees the data block, and holds the phantom from then on. -/
theorem free_data {m : Nat} (hm : m ≤ 1) (hA : Agrees a o (⟨0, 1, 0, 0, 0⟩ + B) freed w) :
    deallocRange a o.data w = ⟨.ok (), w.release a.stack o.data, [w]⟩ ∧
      Agrees a o (⟨0, 0, 1, 0, m⟩ + B) (freed ++ [(a.stack, o.data)])
        (w.release a.stack o.data) := by
  have hlast : 0 < (⟨0, 1, 0, 0, 0⟩ + B : Ledger).last := Nat.add_pos_left Nat.one_pos _
  have hlive := hA.data_live (Nat.add_pos_right _ hlast)
  have hk := Ledger.keep_pos (Ledger.watchers_of_last hlast)
  -- the data block is not freed yet, and nobody else is about to free it
  have hcount := hA.data_freed
  have hsole : B.strong = 0 ∧ B.last = 0 ∧ freed.count (a.stack, o.data) = 0 := by
    simp only [Ledger.phantom, Ledger.strong_add, Ledger.last_add] at hcount
    split at hcount <;> omega
  obtain ⟨hstrong, hnolast, hnone⟩ := hsole
  have hphantom : (⟨0, 0, 1, 0, m⟩ + B : Ledger).phantom = 0 := by
    rw [Ledger.phantom_of_none (by simp [hstrong])]
    simp [hnolast]
  have hwatchers : (⟨0, 0, 1, 0, m⟩ + B : Ledger).watchers = (⟨0, 1, 0, 0, 0⟩ + B : Ledger).watchers := by
    rw [Ledger.watchers, hphantom, Ledger.watchers, Ledger.phantom_of_none (by simp [hstrong])]
    simp only [Ledger.weak_add, Ledger.last_add, hnolast]
    omega
  have hkeep := Ledger.keep_eq hwatchers rfl
  have hne : (a.stack, o.ctrl) ≠ (a.stack, o.data) := fun h => hwf.distinct (congrArg Prod.snd h).symm
  refine ⟨deallocRange_run hA.quiet hlive, hA.quiet, ?_, ?_, ?_, ?_, ?_, ?_, ?_, ?_⟩
  · rw [List.count_append, hnone, hphantom]
    simp
  · rw [List.count_append, List.count_singleton, hkeep, if_neg (by simpa using hne.symm)]
    exact hA.ctrl_freed
  · intro h
    rw [hphantom] at h
    omega
  · intro h
    rw [World.mem_live_release hne]
    exact hA.ctrl_live (hkeep ▸ h)
  · intro _
    rw [World.files_release_same, File.bytes_free, hA.strong hk]
    simp
  · intro _
    rw [World.files_release_same, File.bytes_free, hA.weak hk, hwatchers]
  · intro _
    rw [World.files_release_same, File.bytes_free, hA.forward hk]
  · have hmoved := hA.moved
    simp only [Ledger.moved_add, hnone, List.count_append] at hmoved ⊢
    simp
    omega

theorem free_ctrl {m : Nat} (hA : Agrees a o (⟨0, 0, 0, 1, m⟩ + B) freed w) :
    deallocRange a o.ctrl w = ⟨.ok (), w.release a.stack o.ctrl, [w]⟩ ∧
      Agrees a o (⟨0, 0, 0, 0, m⟩ + B) (freed ++ [(a.stack, o.ctrl)])
        (w.release a.stack o.ctrl) := by
  have hlive := hA.ctrl_live (Nat.add_pos_right _ (Nat.add_pos_left Nat.one_pos _))
  have hcount := hA.ctrl_freed
  have hwatchers : (⟨0, 0, 0, 0, m⟩ + B : Ledger).watchers = (⟨0, 0, 0, 1, m⟩ + B : Ledger).watchers := rfl
  have hsole : (⟨0, 0, 0, 1, m⟩ + B : Ledger).watchers = 0 ∧ B.closing = 0 ∧
      freed.count (a.stack, o.ctrl) = 0 := by
    simp only [Ledger.keep, Ledger.closing_add] at hcount
    split at hcount <;> omega
  obtain ⟨hnobody, hnoclosing, hnone⟩ := hsole
  have hkeep : (⟨0, 0, 0, 0, m⟩ + B : Ledger).keep = 0 := by
    rw [Ledger.keep_of_none (hwatchers.trans hnobody)]
    simp [hnoclosing]
  have hphantom : (⟨0, 0, 0, 0, m⟩ + B : Ledger).phantom = 0 := by
    have h := hwatchers.trans hnobody
    rw [Ledger.watchers] at h
    omega
  have hne : (a.stack, o.ctrl) ≠ (a.stack, o.data) := fun h => hwf.distinct (congrArg Prod.snd h).symm
  have hcount' : (freed ++ [(a.stack, o.ctrl)]).count (a.stack, o.data) =
      freed.count (a.stack, o.data) := by
    rw [List.count_append, List.count_singleton, if_neg (by simpa using hne)]
    rfl
  refine ⟨deallocRange_run hA.quiet hlive, hA.quiet, ?_, ?_, ?_, ?_, ?_, ?_, ?_, ?_⟩
  · rw [hcount']
    exact hA.data_freed
  · rw [List.count_append, hnone, hkeep]
    simp
  · intro h
    rw [hphantom] at h
    omega
  iterate 4
    intro h
    rw [hkeep] at h
    omega
  · rw [hcount']
    exact hA.moved

omit hwf in
theorem elsewhere {s : Sharing} {w' : World} (hwf : WellFormed o)
    (hA : Agrees a o L s.freed s.world) (h : LeavesAlone a.stack o s w') :
    Agrees a o L s.freed w' := by
  have hdata : 0 < L.phantom → (a.stack, o.data) ∉ s.freed := by
    intro hp hmem
    have hpos := List.count_pos_iff.mpr hmem
    have hcount := hA.data_freed
    omega
  have hctrl : 0 < L.keep → (a.stack, o.ctrl) ∉ s.freed := by
    intro hp hmem
    have hpos := List.count_pos_iff.mpr hmem
    have hcount := hA.ctrl_freed
    omega
  have hword : ∀ field, field + 8 ≤ CONTROL_SIZE → 0 < L.keep →
      (w'.files a.stack).bytes.word (o.ctrl.start + field) =
        (s.world.files a.stack).bytes.word (o.ctrl.start + field) := by
    intro field hfield hp
    apply Mem.word_congr
    intro i hge hlt
    apply h.bytes (hctrl hp)
    · omega
    · rw [Range.stop, hwf.size]
      omega
  exact {
    quiet := h.quiet
    data_freed := hA.data_freed
    ctrl_freed := hA.ctrl_freed
    data_live := fun hp => h.keeps _ (.inl rfl) (hdata hp) (hA.data_live hp)
    ctrl_live := fun hp => h.keeps _ (.inr rfl) (hctrl hp) (hA.ctrl_live hp)
    strong := fun hp => (hword _ (by decide) hp).trans (hA.strong hp)
    weak := fun hp => (hword _ (by decide) hp).trans (hA.weak hp)
    forward := fun hp => (hword _ (by decide) hp).trans (hA.forward hp)
    moved := hA.moved }

end Steps

end Agrees

end BStackRaii
