import BStackRaii.Proof.WeakSlot.Objects
/-!
# Who holds the counts of an object

Handles, slots, calls and the steps that failed hold the counts of an object together, and the invariant
says that the file agrees with the ledger of all of them. A call that has read its slot and has not pinned
its target holds nothing: what keeps the control block for it is the slot, which a lock or the run protects.
-/

namespace BStackRaii

namespace WeakSlot

/-! ### Objects and slots -/

structure Family (os : List BStackRc) : Prop where
  wf : ∀ o ∈ os, WellFormed o
  apart : ∀ o ∈ os, ∀ o' ∈ os, o ≠ o' → Apart o o'

theorem Family.eq_of_ctrl {os : List BStackRc} (hf : Family os) {o o' : BStackRc} (ho : o ∈ os) (ho' : o' ∈ os)
    (h : o.ctrl = o'.ctrl) : o = o' := by
  by_contra hne
  exact (hf.apart o ho o' ho' hne).ctrl_ne h.symm

theorem Start.family {a : Allocator} {os : List BStackRc} {slots : List Slot} {s : State}
    (h : Start a os slots s) : Family os := by
  obtain ⟨hself, hpair⟩ := List.pairwise_flatMap.mp h.distinct
  refine ⟨fun o ho => ?_, fun o ho o' ho' hne => ?_⟩
  · obtain ⟨hlen, hpos, hroom⟩ := h.control o ho
    exact ⟨((List.pairwise_cons.mp (hself o ho)).1 _ (List.mem_singleton_self _)).1, hlen, hpos, hroom⟩
  · have hsymm : Std.Symm fun x y : BStackRc => ∀ r ∈ [x.data, x.ctrl], ∀ r' ∈ [y.data, y.ctrl], r.Apart r' :=
      ⟨fun x y hxy r hr r' hr' => (hxy r' hr' r hr).symm⟩
    have hsep := hpair.forall ho' ho hne.symm
    exact ⟨(hsep _ (by simp) _ (by simp)).1, (hsep _ (by simp) _ (by simp)).1, (hsep _ (by simp) _ (by simp)).1,
      hsep _ (by simp) _ (by simp)⟩

/-- Where the slots lie. -/
structure Layout (os : List BStackRc) (slots : List Slot) : Prop where
  apart : slots.Pairwise fun σ τ => σ.range.stop ≤ τ.range.start ∨ τ.range.stop ≤ σ.range.start
  clear : ∀ σ ∈ slots, ∀ o ∈ os, σ.range.stop ≤ o.ctrl.start ∨ o.ctrl.stop ≤ σ.range.start
  enums : ∀ e start, .variant e start ∈ slots → e.tag.length = 8 ∧ 8 ≤ e.payloadLen
  elements : ∀ contents i size, .element contents i size ∈ slots → 8 * i + 8 ≤ contents.len

theorem Start.layout {a : Allocator} {os : List BStackRc} {slots : List Slot} {s : State}
    (h : Start a os slots s) : Layout os slots := ⟨h.slots_apart, h.slots_clear, h.enums, h.elements⟩

variable {a : Allocator} {os : List BStackRc} {slots : List Slot} {firm : Slot → Prop} {σ τ : Slot} {f f' : File}
  {w w' : World}

theorem Layout.apart_of_ne (hl : Layout os slots) (hσ : σ ∈ slots) (hτ : τ ∈ slots) (hne : σ ≠ τ) :
    σ.range.stop ≤ τ.range.start ∨ τ.range.stop ≤ σ.range.start := by
  have hsymm : Std.Symm fun σ τ : Slot => σ.range.stop ≤ τ.range.start ∨ τ.range.stop ≤ σ.range.start :=
    ⟨fun _ _ h => h.symm⟩
  exact hl.apart.forall hσ hτ hne

/-- A slot whose bytes did not change names what it named. -/
theorem Slot.target_congr (h : ∀ i, σ.range.start ≤ i → i < σ.range.stop → f'.bytes i = f.bytes i) :
    σ.target f' = σ.target f :=
  congrArg σ.names (Mem.read_congr fun i hge hlt => h i hge hlt)

/-- What the accessor decodes is what the slot names. -/
theorem Slot.decode_fetched (hl : Layout os slots) (hσ : σ ∈ slots) {ctrl : Range} {size : Nat} :
    σ.decode (f.bytes.read σ.fetched.start σ.fetched.len) = .ok (ctrl, size) ↔ σ.target f = some (ctrl, size) := by
  cases σ with
  | field off n =>
      simp only [decode, fetched, target, names, range]
      by_cases hnull : leNat (f.bytes.read off 8) = 0
      · simp [hnull]
      · simp [hnull]
  | element contents i n =>
      have hin := hl.elements contents i n hσ
      have hread : ((f.bytes.read contents.start contents.len).drop (8 * i)).take 8 =
          f.bytes.read (contents.start + 8 * i) 8 := Mem.take_drop_read hin
      simp only [decode, fetched, target, names, range, Mem.length_read, if_pos hin, hread]
      simp
  | variant e start =>
      simp only [decode, fetched, target, names, range]
      rcases e.variants (e.discOf (f.bytes.read start e.size)) with _ | _ | _
      · simp
      · simp
      · simp

/-! ### Enum records -/

section Records

variable {e : EnumType} {v : Value}

theorem EnumType.length_image (htag : e.tag.length = 8) (hpayload : (v.payload e.payloadLen).length = e.payloadLen) :
    (e.image v).length = e.size := by
  simp only [image, size, List.length_append, length_leBytes, htag, hpayload, HEADER_SIZE]

theorem EnumType.image_eq (e : EnumType) (v : Value) : e.image v =
    (leBytes 8 e.size ++ e.tag) ++ (leBytes e.discLen v.disc ++ v.payload e.payloadLen) := by
  simp only [image, List.append_assoc]

theorem EnumType.discOf_image (htag : e.tag.length = 8) (hdisc : v.disc < 256 ^ e.discLen) :
    e.discOf (e.image v) = v.disc := by
  have hhead : (leBytes 8 e.size ++ e.tag).length = HEADER_SIZE := by
    rw [List.length_append, length_leBytes, htag]
    rfl
  rw [discOf, image_eq, List.drop_left' hhead, List.take_left' (length_leBytes ..), leNat_leBytes hdisc]

theorem EnumType.payloadOf_image (htag : e.tag.length = 8) : e.payloadOf (e.image v) = v.payload e.payloadLen := by
  have hhead : (leBytes 8 e.size ++ e.tag ++ leBytes e.discLen v.disc).length = HEADER_SIZE + e.discLen := by
    simp only [List.length_append, length_leBytes, htag]
    rfl
  rw [payloadOf, image, List.drop_left' hhead]

theorem Value.length_payload {os : List BStackRc} (hroom : 8 ≤ e.payloadLen) (h : v.Fits os e) :
    (v.payload e.payloadLen).length = e.payloadLen := by
  cases v with
  | weak disc hd =>
      simp only [payload, List.length_append, length_leBytes, List.length_replicate]
      omega
  | other disc bytes => exact h.2.2

end Records

/-! ### Ledgers -/

/-- What a returned value holds: a count of the object with this control block. -/
def Handed.holding : Handed → Option (Range × Ledger)
  | strong h => some (h.ctrl, ⟨1, 0, 0, 0, 0⟩)
  | value (.weak _ h) | recovered _ h | recoveredValue _ (.weak _ h) => some (h.ctrl, ⟨0, 0, 1, 0, 0⟩)
  | _ => none

namespace Phase

def holding : Phase → Option (Range × Ledger)
  | set _ _ h | replace _ _ (.weak _ h) => some (h.ctrl, ⟨0, 0, 1, 0, 0⟩)
  | forward _ ctrl _ | unclaim _ ctrl _ _ => some (ctrl, ⟨1, 0, 0, 0, 0⟩)
  | retry _ ctrl _ _ | releasing _ ctrl _ _ => some (ctrl, ⟨0, 1, 0, 0, 0⟩)
  | dropStrong h => some (h.ctrl, ⟨1, 0, 0, 0, 0⟩)
  | freeData h => some (h.ctrl, ⟨0, 1, 0, 0, 0⟩)
  | payWeak ctrl _ => some (ctrl, ⟨0, 0, 1, 0, 0⟩)
  | freeCtrl ctrl _ => some (ctrl, ⟨0, 0, 0, 1, 0⟩)
  | done (.ok r) => r.holding
  | _ => none

def share (o : BStackRc) (ph : Phase) : Ledger :=
  match ph.holding with
  | some (ctrl, L) => if ctrl = o.ctrl then L else 0
  | none => 0

theorem share_none {ph : Phase} (h : ph.holding = none) (o : BStackRc) : ph.share o = 0 := by
  rw [share, h]

theorem share_some {ph : Phase} {ctrl : Range} {L : Ledger} (h : ph.holding = some (ctrl, L)) (o : BStackRc) :
    ph.share o = if ctrl = o.ctrl then L else 0 := by
  rw [share, h]

/-- A call that has read its slot and has not pinned its target. -/
def pinning : Phase → Option (Slot × Range × Nat)
  | load σ ctrl size | bump σ ctrl size => some (σ, ctrl, size)
  | _ => none

/-- The points at which a field accessor has the lock. -/
def Locked : Phase → Prop
  | set _ _ _ => True
  | locate σ | load σ _ _ | bump σ _ _ => σ.Locks
  | _ => False

/-- The points at which a call may wait for the lock. -/
def Entry : Phase → Prop
  | set _ _ _ | locate _ => True
  | _ => False

/-- An upgrade that could not read the forward pointer. -/
def Undoing : Phase → Prop
  | unclaim _ _ _ _ | retry _ _ _ _ | releasing _ _ _ _ => True
  | _ => False

end Phase

def Names (os : List BStackRc) (ctrl : Range) (size : Nat) : Prop := ∃ o ∈ os, o.ctrl = ctrl ∧ o.data.len = size

def Handed.Sound (os : List BStackRc) : Handed → Prop
  | strong h => h ∈ os
  | value (.weak _ h) | recovered _ h | recoveredValue _ (.weak _ h) => ∃ o ∈ os, h = ⟨o.ctrl⟩
  | _ => True

/-- What is known of a call: its target is one of the objects, only an infirm slot is replaced, and no enum read
has failed. -/
def Phase.Sound (a : Allocator) (os : List BStackRc) (slots : List Slot) (firm : Slot → Prop) : Phase → Prop
  | set off size new => .field off size ∈ slots ∧ HandleOf os size new
  | replace e start new => .variant e start ∈ slots ∧ ¬ firm (.variant e start) ∧ new.Fits os e
  | locate σ => σ ∈ slots
  | load σ ctrl size | bump σ ctrl size | forward σ ctrl size => σ ∈ slots ∧ Names os ctrl size
  | unclaim σ ctrl size _ | retry σ ctrl size _ => ¬ σ.IsVariant ∧ Names os ctrl size
  | releasing σ ctrl code _ =>
      ¬ σ.IsVariant ∧ ∃ o ∈ os, o.ctrl = ctrl ∧ ∃ data, code = strongReleaseCtrl a data ctrl
  | dropStrong h | freeData h => h ∈ os
  | payWeak ctrl payer | freeCtrl ctrl payer => (∃ o ∈ os, o.ctrl = ctrl) ∧ (payer = .handle ∨ payer = .setter)
  | done (.ok r) => r.Sound os
  | done (.error _) => True

namespace State

def handles (a : Allocator) (slots : List Slot) (s : State) (o : BStackRc) : Ledger :=
  ⟨s.strong.count o, 0, s.weak.count ⟨o.ctrl⟩ + s.slotsOf a slots o, 0, 0⟩

def inFlight (calls : Multiset Access) (o : BStackRc) : Ledger := (calls.map fun t => t.phase.share o).sum

@[simp] theorem inFlight_cons (t : Access) (calls : Multiset Access) (o : BStackRc) :
    inFlight (t ::ₘ calls) o = t.phase.share o + inFlight calls o := by
  rw [inFlight, Multiset.map_cons, Multiset.sum_cons]
  rfl

@[simp] theorem inFlight_zero (o : BStackRc) : inFlight 0 o = 0 := rfl

def total (a : Allocator) (slots : List Slot) (leaked : BStackRc → Ledger) (s : State) (o : BStackRc) : Ledger :=
  s.handles a slots o + inFlight s.calls o + leaked o

/-- The control references displaced and not released yet. -/
def owed (s : State) : Multiset Nat := (s.calls.map fun t => t.phase.owes).sum

end State

/-- The invariant. `firm` slots change under the lock only, and `exact` runs have no failure. -/
structure Inv (a : Allocator) (os : List BStackRc) (slots : List Slot) (firm : Slot → Prop) (exact : Prop) (s : State)
    (leaked : BStackRc → Ledger) : Prop where
  quiet : s.world.Quiet
  agrees : ∀ o ∈ os, Agrees a o (s.total a slots leaked o) s.freed s.world
  strong : ∀ h ∈ s.strong, h ∈ os
  weak : ∀ h ∈ s.weak, ∃ o ∈ os, h = ⟨o.ctrl⟩
  sound : ∀ t ∈ s.calls, t.phase.Sound a os slots firm
  guarded : ∀ t ∈ s.calls, t.phase.Locked → t.guard ≠ .free
  waiting : ∀ t ∈ s.calls, t.guard = .waiting → t.phase.Entry
  holders : s.calls.countP (fun t => t.guard = .holding) = if s.locked then 1 else 0
  inside : ∀ σ ∈ slots, σ.fetched.stop ≤ (s.world.files a.stack).len
  named : ∀ σ ∈ slots, ∀ ctrl size, σ.target (s.world.files a.stack) = some (ctrl, size) → Names os ctrl size
  readers : ∀ t ∈ s.calls, ∀ σ ctrl size, t.phase.pinning = some (σ, ctrl, size) →
    (firm σ → σ.target (s.world.files a.stack) = some (ctrl, size)) ∧
    ∀ o ∈ os, o.ctrl = ctrl → 0 < (s.total a slots leaked o).keep
  settled : s.displaced = s.released + s.lost + s.owed
  exact : exact → (∀ o, leaked o = 0) ∧ s.lost = 0 ∧ ∀ t ∈ s.calls, ¬ t.phase.Undoing

end WeakSlot

end BStackRaii
