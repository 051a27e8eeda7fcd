import BStackRaii.Proof.WeakSlot.Invariant
import Mathlib.Tactic.Abel
/-!
# Atomic steps of calls keep the invariant

A step of a call is seen by the ledger of one object, and the others are framed. A step that fails leaks what
its call held. The steps here leave the bytes of the slots alone.
-/

namespace BStackRaii

namespace WeakSlot

variable {a : Allocator} {os : List BStackRc} {slots : List Slot} {firm : Slot → Prop} {exact : Prop} {s : State}
  {leaked : BStackRc → Ledger} {o : BStackRc}

namespace State

/-- What everyone but one call holds. -/
def others (a : Allocator) (slots : List Slot) (leaked : BStackRc → Ledger) (s : State) (rest : Multiset Access)
    (o : BStackRc) : Ledger := s.handles a slots o + inFlight rest o + leaked o

theorem total_cons {t : Access} {rest : Multiset Access} (hcalls : s.calls = t ::ₘ rest) (o : BStackRc) :
    s.total a slots leaked o = t.phase.share o + s.others a slots leaked rest o := by
  rw [total, hcalls, inFlight_cons, others]
  abel

theorem owed_cons {t : Access} {rest : Multiset Access} (hcalls : s.calls = t ::ₘ rest) :
    s.owed = t.phase.owes + (rest.map fun t => t.phase.owes).sum := by
  rw [owed, hcalls, Multiset.map_cons, Multiset.sum_cons]

def moved (s : State) (ph ph' : Phase) (guard : Guard) (rest : Multiset Access) (w' : World) : State :=
  { s with
    world := w'
    calls := ⟨ph', guard⟩ ::ₘ rest
    freed := s.freed ++ newlyFreed s.world w'
    displaced := s.displaced + ph.displaces ph'
    released := s.released + ph.releases ph'
    lost := s.lost + ph.loses ph' }

theorem act_eq {ph ph' : Phase} {guard : Guard} {rest : Multiset Access} {w w' : World}
    (hnext : ph.next a w = (ph', w')) : s.act a ph guard rest w = s.moved ph ph' guard rest w' := by
  rw [act, hnext, moved]

end State

theorem Phase.Sound.slot_mem {ph : Phase} (h : ph.Sound a os slots firm) {σ : Slot} {ctrl : Range} {size : Nat}
    (hpin : ph.pinning = some (σ, ctrl, size)) : σ ∈ slots := by
  cases ph <;> cases hpin
  · exact h.1
  · exact h.1

theorem Phase.Sound.fresh {ph : Phase} (h : ph.Sound a os slots firm) (hf : Family os) : ph.Fresh a := by
  cases ph with
  | releasing σ ctrl code e =>
      obtain ⟨-, o, ho, hctrl, data, hcode⟩ := h
      exact ⟨o, hf.wf o ho, hctrl, data, hcode⟩
  | _ => exact trivial

/-! ### Steps that change no slot -/

section Acts

variable {ph ph' : Phase} {guard : Guard} {rest : Multiset Access} {w w' : World} {leak : BStackRc → Ledger}

/-- A step of the call at `ph` to `ph'` that leaves the bytes of the slots alone. -/
structure Acts (a : Allocator) (os : List BStackRc) (slots : List Slot) (firm : Slot → Prop) (exact : Prop) (s : State)
    (leaked : BStackRc → Ledger) (ph : Phase) (rest : Multiset Access) (ph' : Phase) (w' : World)
    (leak : BStackRc → Ledger) : Prop where
  quiet : w'.Quiet
  bytes : ∀ σ ∈ slots, ∀ i, σ.range.start ≤ i → i < σ.range.stop →
    (w'.files a.stack).bytes i = (s.world.files a.stack).bytes i
  len : (w'.files a.stack).len = (s.world.files a.stack).len
  agrees : ∀ o ∈ os, Agrees a o (ph'.share o + (s.others a slots leaked rest o + leak o))
    (s.freed ++ newlyFreed s.world w') w'
  sound : ph'.Sound a os slots firm
  locked : ph'.Locked → ph.Locked
  pins : ∀ σ ctrl size, ph'.pinning = some (σ, ctrl, size) →
    (firm σ → σ.target (s.world.files a.stack) = some (ctrl, size)) ∧
    ∀ o ∈ os, o.ctrl = ctrl → 0 < (ph'.share o + (s.others a slots leaked rest o + leak o)).keep
  watch : ∀ t ∈ rest, ∀ σ ctrl size, t.phase.pinning = some (σ, ctrl, size) → ∀ o ∈ os, o.ctrl = ctrl →
    0 < (ph'.share o + (s.others a slots leaked rest o + leak o)).keep
  settles : ph.displaces ph' + ph.owes = ph.releases ph' + ph.loses ph' + ph'.owes
  clean : exact → (∀ o, leak o = 0) ∧ ph.loses ph' = 0 ∧ ¬ ph'.Undoing

theorem slotsOf_congr {w' : World} {s' : State} (hworld : s'.world = w')
    (h : ∀ σ ∈ slots, σ.target (w'.files a.stack) = σ.target (s.world.files a.stack)) (o : BStackRc) :
    s'.slotsOf a slots o = s.slotsOf a slots o := by
  rw [State.slotsOf, State.slotsOf, hworld]
  congr 1
  refine List.filter_congr fun σ hσ => ?_
  rw [h σ hσ]

/-- What the invariant says of the calls apart from what they have read. -/
structure Tended (a : Allocator) (os : List BStackRc) (slots : List Slot) (firm : Slot → Prop) (exact : Prop)
    (s : State) : Prop where
  sound : ∀ t ∈ s.calls, t.phase.Sound a os slots firm
  guarded : ∀ t ∈ s.calls, t.phase.Locked → t.guard ≠ .free
  waiting : ∀ t ∈ s.calls, t.guard = .waiting → t.phase.Entry
  holders : s.calls.countP (fun t => t.guard = .holding) = if s.locked then 1 else 0
  settled : s.displaced = s.released + s.lost + s.owed
  spotless : exact → s.lost = 0 ∧ ∀ t ∈ s.calls, ¬ t.phase.Undoing

theorem Inv.tended (hi : Inv a os slots firm exact s leaked) (hcalls : s.calls = ⟨ph, guard⟩ ::ₘ rest)
    (hguard : guard ≠ .waiting) (hsound : ph'.Sound a os slots firm) (hlocked : ph'.Locked → ph.Locked)
    (hsettles : ph.displaces ph' + ph.owes = ph.releases ph' + ph.loses ph' + ph'.owes)
    (hclean : exact → ph.loses ph' = 0 ∧ ¬ ph'.Undoing) (w' : World) :
    Tended a os slots firm exact (s.moved ph ph' guard rest w') := by
  have hmem : ∀ t ∈ rest, t ∈ s.calls := fun t ht => hcalls ▸ Multiset.mem_cons_of_mem ht
  have hself : (⟨ph, guard⟩ : Access) ∈ s.calls := hcalls ▸ Multiset.mem_cons_self _ _
  have hsettled := hi.settled
  rw [State.owed_cons hcalls] at hsettled
  refine ⟨?_, ?_, ?_, ?_, ?_, ?_⟩
  · intro t ht
    rcases Multiset.mem_cons.mp ht with rfl | ht
    · exact hsound
    · exact hi.sound t (hmem t ht)
  · intro t ht hlock
    rcases Multiset.mem_cons.mp ht with rfl | ht
    · exact hi.guarded ⟨ph, guard⟩ hself (hlocked hlock)
    · exact hi.guarded t (hmem t ht) hlock
  · intro t ht hwaits
    rcases Multiset.mem_cons.mp ht with rfl | ht
    · exact absurd hwaits hguard
    · exact hi.waiting t (hmem t ht) hwaits
  · have hcount := hi.holders
    rw [hcalls, Multiset.countP_cons] at hcount
    rw [State.moved, Multiset.countP_cons]
    exact hcount
  · rw [State.owed, State.moved, Multiset.map_cons, Multiset.sum_cons, hsettled]
    calc s.released + s.lost + (ph.owes + (rest.map fun t => t.phase.owes).sum) + ph.displaces ph'
        = s.released + s.lost + (rest.map fun t => t.phase.owes).sum + (ph.displaces ph' + ph.owes) := by abel
      _ = s.released + s.lost + (rest.map fun t => t.phase.owes).sum +
          (ph.releases ph' + ph.loses ph' + ph'.owes) := by rw [hsettles]
      _ = s.released + ph.releases ph' + (s.lost + ph.loses ph') +
          (ph'.owes + (rest.map fun t => t.phase.owes).sum) := by abel
  · intro hexact
    obtain ⟨-, hlost, hundo⟩ := hi.exact hexact
    obtain ⟨hloses, hundo'⟩ := hclean hexact
    refine ⟨?_, fun t ht => ?_⟩
    · rw [State.moved, hlost, hloses, add_zero]
    · rcases Multiset.mem_cons.mp ht with rfl | ht
      · exact hundo'
      · exact hundo t (hmem t ht)

theorem Inv.acts (hi : Inv a os slots firm exact s leaked) (hcalls : s.calls = ⟨ph, guard⟩ ::ₘ rest)
    (hguard : guard ≠ .waiting) (hnext : ph.next a w = (ph', w'))
    (h : Acts a os slots firm exact s leaked ph rest ph' w' leak) :
    Inv a os slots firm exact (s.act a ph guard rest w) fun o => leaked o + leak o := by
  rw [State.act_eq hnext]
  have htarget : ∀ σ ∈ slots, σ.target (w'.files a.stack) = σ.target (s.world.files a.stack) :=
    fun σ hσ => Slot.target_congr (h.bytes σ hσ)
  have htotal : ∀ o, (s.moved ph ph' guard rest w').total a slots (fun o => leaked o + leak o) o =
      ph'.share o + (s.others a slots leaked rest o + leak o) := by
    intro o
    have hslots : (s.moved ph ph' guard rest w').slotsOf a slots o = s.slotsOf a slots o := slotsOf_congr rfl htarget o
    rw [State.total, State.handles, hslots, State.others, State.handles]
    simp only [State.moved, State.inFlight_cons]
    abel
  have hmem : ∀ t ∈ rest, t ∈ s.calls := fun t ht => hcalls ▸ Multiset.mem_cons_of_mem ht
  have htended := hi.tended hcalls hguard h.sound h.locked h.settles (fun hexact => (h.clean hexact).2) w'
  refine ⟨h.quiet, ?_, hi.strong, hi.weak, htended.sound, htended.guarded, htended.waiting, htended.holders, ?_, ?_, ?_,
    htended.settled, ?_⟩
  · intro o ho
    rw [htotal]
    exact h.agrees o ho
  · intro σ hσ
    rw [State.moved, h.len]
    exact hi.inside σ hσ
  · intro σ hσ ctrl size hnamed
    rw [State.moved, htarget σ hσ] at hnamed
    exact hi.named σ hσ ctrl size hnamed
  · intro t ht σ ctrl size hpin
    simp only [htotal]
    rcases Multiset.mem_cons.mp ht with rfl | ht
    · rw [State.moved, htarget σ (h.sound.slot_mem hpin)]
      exact h.pins σ ctrl size hpin
    · rw [State.moved, htarget σ ((hi.sound t (hmem t ht)).slot_mem hpin)]
      exact ⟨(hi.readers t (hmem t ht) σ ctrl size hpin).1, h.watch t ht σ ctrl size hpin⟩
  · intro hexact
    refine ⟨fun o => ?_, htended.spotless hexact⟩
    show leaked o + leak o = 0
    rw [(hi.exact hexact).1 o, (h.clean hexact).1 o, add_zero]

theorem Acts.still (hi : Inv a os slots firm exact s leaked) (hcalls : s.calls = ⟨ph, guard⟩ ::ₘ rest)
    (hshare : ∀ o, ph'.share o + leak o = ph.share o) (hsound : ph'.Sound a os slots firm)
    (hlocked : ph'.Locked → ph.Locked)
    (hpins : ∀ σ ctrl size, ph'.pinning = some (σ, ctrl, size) →
      (firm σ → σ.target (s.world.files a.stack) = some (ctrl, size)) ∧
      ∀ o ∈ os, o.ctrl = ctrl → 0 < (s.total a slots leaked o).keep)
    (hsettles : ph.displaces ph' + ph.owes = ph.releases ph' + ph.loses ph' + ph'.owes)
    (hclean : exact → (∀ o, leak o = 0) ∧ ph.loses ph' = 0 ∧ ¬ ph'.Undoing) :
    Acts a os slots firm exact s leaked ph rest ph' s.world leak := by
  have htotal : ∀ o, ph'.share o + (s.others a slots leaked rest o + leak o) = s.total a slots leaked o := by
    intro o
    have hcons : s.total a slots leaked o = ph.share o + s.others a slots leaked rest o := State.total_cons hcalls o
    rw [hcons, ← hshare o]
    abel
  have hnone : newlyFreed s.world s.world = [] := newlyFreed_of_eq rfl
  refine ⟨hi.quiet, fun _ _ _ _ _ => rfl, rfl, fun o ho => ?_, hsound, hlocked, ?_, ?_, hsettles, hclean⟩
  · rw [htotal, hnone, List.append_nil]
    exact hi.agrees o ho
  · intro σ ctrl size hpin
    simp only [htotal]
    exact hpins σ ctrl size hpin
  · intro t ht σ ctrl size hpin o ho hctrl
    rw [htotal]
    have hmem : t ∈ s.calls := hcalls ▸ Multiset.mem_cons_of_mem ht
    exact (hi.readers t hmem σ ctrl size hpin).2 o ho hctrl

/-- What else the step did to the world does not matter, as long as the files and what is freed are the same. -/
theorem Acts.alike {w w' : World} (h : Acts a os slots firm exact s leaked ph rest ph' w leak) (hq : w'.Quiet)
    (hfiles : w'.files = w.files) (hfreed : w'.freed = w.freed) :
    Acts a os slots firm exact s leaked ph rest ph' w' leak where
  quiet := hq
  bytes := hfiles ▸ h.bytes
  len := hfiles ▸ h.len
  agrees o ho := by
    have hagrees := h.agrees o ho
    rw [newlyFreed, hfreed]
    exact ⟨hq, hagrees.data_freed, hagrees.ctrl_freed, hfiles ▸ hagrees.data_live, hfiles ▸ hagrees.ctrl_live,
      hfiles ▸ hagrees.strong, hfiles ▸ hagrees.weak, hfiles ▸ hagrees.forward, hagrees.moved⟩
  sound := h.sound
  locked := h.locked
  pins := h.pins
  watch := h.watch
  settles := h.settles
  clean := h.clean

/-- A call holds counts of one object at most. -/
def Phase.On (o : BStackRc) (ph : Phase) : Prop := ∀ ctrl L, ph.holding = some (ctrl, L) → ctrl = o.ctrl

theorem Phase.On.share_ne {o o' : BStackRc} {ph : Phase} (h : ph.On o) (hne : o'.ctrl ≠ o.ctrl) : ph.share o' = 0 := by
  rw [Phase.share]
  split
  · rename_i ctrl L hholding
    exact if_neg fun heq => hne ((h ctrl L hholding) ▸ heq.symm)
  · rfl

theorem Acts.touch (hi : Inv a os slots firm exact s leaked) (hf : Family os) (hl : Layout os slots)
    (hcalls : s.calls = ⟨ph, guard⟩ ::ₘ rest) (ho : o ∈ os) (hon : ph.On o) (hon' : ph'.On o)
    (leak : Ledger)
    (ht : Touches a.stack o s.freed (s.freed ++ newlyFreed s.world w') s.world w')
    (hself : Agrees a o (ph'.share o + (s.others a slots leaked rest o + leak))
      (s.freed ++ newlyFreed s.world w') w')
    (hwatch : (∃ t ∈ rest, ∃ σ size, t.phase.pinning = some (σ, o.ctrl, size)) →
      0 < (ph'.share o + (s.others a slots leaked rest o + leak)).keep)
    (hsound : ph'.Sound a os slots firm) (hlocked : ph'.Locked → ph.Locked)
    (hpins : ∀ σ ctrl size, ph'.pinning = some (σ, ctrl, size) → ctrl = o.ctrl ∧
      (firm σ → σ.target (s.world.files a.stack) = some (ctrl, size)) ∧
      0 < (ph'.share o + (s.others a slots leaked rest o + leak)).keep)
    (hsettles : ph.displaces ph' + ph.owes = ph.releases ph' + ph.loses ph' + ph'.owes)
    (hclean : exact → leak = 0 ∧ ph.loses ph' = 0 ∧ ¬ ph'.Undoing) :
    Acts a os slots firm exact s leaked ph rest ph' w' fun x => if x.ctrl = o.ctrl then leak else 0 := by
  have hsame : ∀ x ∈ os, x.ctrl = o.ctrl → x = o := fun x hx h => hf.eq_of_ctrl hx ho h
  have hother : ∀ x, x.ctrl ≠ o.ctrl → ph'.share x + (s.others a slots leaked rest x + 0) =
    s.total a slots leaked x := by
    intro x hne
    have hcons : s.total a slots leaked x = ph.share x + s.others a slots leaked rest x := State.total_cons hcalls x
    rw [hcons, hon.share_ne hne, hon'.share_ne hne, add_zero]
  refine ⟨ht.quiet, ?_, ht.len, ?_, hsound, hlocked, ?_, ?_, hsettles, ?_⟩
  · intro σ hσ i hge hlt
    have hclear := hl.clear σ hσ o ho
    refine ht.bytes i ?_
    omega
  · intro x hx
    by_cases heq : x.ctrl = o.ctrl
    · obtain rfl := hsame x hx heq
      rw [if_pos rfl]
      exact hself
    · rw [if_neg heq, hother x heq]
      have hne : o ≠ x := fun h => heq (h ▸ rfl)
      exact agrees_of_touches (hf.wf x hx) (hf.apart o ho x hx hne) ht (hi.agrees x hx)
  · intro σ ctrl size hpin
    obtain ⟨rfl, hfirm, hpos⟩ := hpins σ ctrl size hpin
    refine ⟨hfirm, fun x hx heq => ?_⟩
    obtain rfl := hsame x hx heq
    rw [if_pos rfl]
    exact hpos
  · intro t htr σ ctrl size hpin x hx heq
    subst heq
    by_cases heq : x.ctrl = o.ctrl
    · obtain rfl := hsame x hx heq
      rw [if_pos rfl]
      exact hwatch ⟨t, htr, σ, size, hpin⟩
    · rw [if_neg heq, hother x heq]
      have hmem : t ∈ s.calls := hcalls ▸ Multiset.mem_cons_of_mem htr
      exact (hi.readers t hmem σ _ size hpin).2 x hx rfl
  · intro hexact
    obtain ⟨rfl, hloses, hundo⟩ := hclean hexact
    exact ⟨fun x => ite_self 0, hloses, hundo⟩

end Acts

/-! ### Watchers -/

section Watchers

variable {L L' B : Ledger} {freed freed' : List (Nat × Range)} {w w' : World}

theorem watchers_weak (B : Ledger) : (⟨0, 0, 1, 0, 0⟩ + B : Ledger).watchers = 1 + B.watchers := by
  have hphantom : (⟨0, 0, 1, 0, 0⟩ + B : Ledger).phantom = B.phantom := by
    simp only [Ledger.phantom, Ledger.strong_add, Ledger.last_add, Nat.zero_add]
  simp only [Ledger.watchers, hphantom, Ledger.weak_add, Nat.add_assoc]

theorem watchers_closing (B : Ledger) : (⟨0, 0, 0, 1, 0⟩ + B : Ledger).watchers = B.watchers := by
  simp only [Ledger.watchers, Ledger.phantom, Ledger.strong_add, Ledger.last_add, Ledger.weak_add, Nat.zero_add]

theorem keep_closing (B : Ledger) : (⟨0, 0, 0, 1, 0⟩ + B : Ledger).keep = 1 + B.keep := by
  simp only [Ledger.keep, watchers_closing, Ledger.closing_add]
  omega

/-- The control block stands until it is freed. -/
theorem keep_eq (hA : Agrees a o L freed w) (hA' : Agrees a o L' freed' w')
    (h : freed'.count (a.stack, o.ctrl) = freed.count (a.stack, o.ctrl)) : L'.keep = L.keep := by
  have hbefore := hA.ctrl_freed
  have hafter := hA'.ctrl_freed
  omega

theorem slotsOf_pos {σ : Slot} (hσ : σ ∈ slots) {ctrl : Range} {size : Nat}
    (htarget : σ.target (s.world.files a.stack) = some (ctrl, size)) (hctrl : o.ctrl = ctrl) :
    0 < s.slotsOf a slots o := by
  refine List.length_pos_of_mem (List.mem_filter.mpr ⟨hσ, ?_⟩)
  rw [htarget, hctrl]
  exact decide_eq_true rfl

theorem others_watched {σ : Slot} (hσ : σ ∈ slots) {ctrl : Range} {size : Nat} {rest : Multiset Access}
    (htarget : σ.target (s.world.files a.stack) = some (ctrl, size)) (hctrl : o.ctrl = ctrl) :
    0 < (s.others a slots leaked rest o).watchers := by
  refine Ledger.watchers_of_weak ?_
  have hpos := slotsOf_pos (a := a) (s := s) hσ htarget hctrl
  simp only [State.others, State.handles, Ledger.weak_add]
  omega

end Watchers

/-! ### One lemma for each phase -/

section Phases

variable {guard : Guard} {rest : Multiset Access} {ph : Phase} {σ : Slot} {ctrl : Range} {size : Nat} {payer : Payer}
  {e : IoError}

/-- The step of the call at `ph` in the world `w` can be seen by the ledgers. -/
def Advances (a : Allocator) (os : List BStackRc) (slots : List Slot) (firm : Slot → Prop) (exact : Prop) (s : State)
    (leaked : BStackRc → Ledger) (rest : Multiset Access) (ph : Phase) (w : World) : Prop :=
  ∃ ph' w' leak, ph.next a w = (ph', w') ∧ Acts a os slots firm exact s leaked ph rest ph' w' leak

theorem Phase.settle_of_not_variant (h : ¬ σ.IsVariant) (out : Except IoError Handed) :
    Phase.settle σ ctrl out = .done out := by
  cases σ with
  | variant e start => exact absurd trivial h
  | field off size => cases out <;> rfl
  | element contents i size => cases out <;> rfl

theorem advances_locate (hi : Inv a os slots firm exact s leaked) (hl : Layout os slots)
    (hcalls : s.calls = ⟨.locate σ, guard⟩ ::ₘ rest) (hσ : σ ∈ slots) :
    Advances a os slots firm exact s leaked rest (.locate σ) s.world := by
  have hrun := getInto_run hi.quiet (hi.inside σ hσ)
  cases hdecode : σ.decode ((s.world.files a.stack).bytes.read σ.fetched.start σ.fetched.len) with
  | ok target =>
      obtain ⟨ctrl, size⟩ := target
      have htarget := (Slot.decode_fetched hl hσ).mp hdecode
      refine ⟨.load σ ctrl size, s.world, fun _ => 0, ?_, Acts.still hi hcalls ?_ ?_ ?_ ?_ ?_ ?_⟩
      · simp only [Phase.next, hrun, hdecode]
      · exact fun o => add_zero _
      · exact ⟨hσ, hi.named σ hσ ctrl size htarget⟩
      · exact id
      · intro τ c n hpin
        cases hpin
        refine ⟨fun _ => htarget, fun o ho hctrl => ?_⟩
        rw [State.total_cons hcalls, Phase.share_none rfl, zero_add]
        exact Ledger.keep_pos (others_watched hσ htarget hctrl)
      · rfl
      · exact fun _ => ⟨fun _ => rfl, rfl, id⟩
  | error out =>
      have hnone : (Phase.done out).holding = none ∧ (Phase.done out).Sound a os slots firm := by
        cases σ with
        | field off n =>
            simp only [Slot.decode] at hdecode
            split at hdecode <;> cases hdecode
            exact ⟨rfl, trivial⟩
        | element contents i n =>
            simp only [Slot.decode] at hdecode
            split at hdecode <;> cases hdecode
            exact ⟨rfl, trivial⟩
        | variant e start =>
            simp only [Slot.decode] at hdecode
            split at hdecode <;> cases hdecode
            · exact ⟨rfl, trivial⟩
            · exact ⟨rfl, trivial⟩
      refine ⟨.done out, s.world, fun _ => 0, ?_, Acts.still hi hcalls ?_ hnone.2 False.elim ?_ ?_ ?_⟩
      · simp only [Phase.next, hrun, hdecode]
      · intro o
        rw [Phase.share_none hnone.1, Phase.share_none rfl, add_zero]
      · exact fun τ c n hpin => by cases hpin
      · rfl
      · exact fun _ => ⟨fun _ => rfl, rfl, id⟩

theorem Inv.not_exact (hi : Inv a os slots firm exact s leaked) (hcalls : s.calls = ⟨ph, guard⟩ ::ₘ rest)
    (hundo : ph.Undoing) : ¬ exact :=
  fun h => (hi.exact h).2.2 ⟨ph, guard⟩ (hcalls ▸ Multiset.mem_cons_self _ _) hundo

/-- The call itself keeps the counters it is about to read. -/
theorem Inv.pinned (hi : Inv a os slots firm exact s leaked) (hcalls : s.calls = ⟨ph, guard⟩ ::ₘ rest)
    (hpin : ph.pinning = some (σ, ctrl, size)) (ho : o ∈ os) (hctrl : o.ctrl = ctrl) :
    0 < (s.total a slots leaked o).keep :=
  (hi.readers _ (hcalls ▸ Multiset.mem_cons_self _ _) σ ctrl size hpin).2 o ho hctrl

theorem advances_load (hi : Inv a os slots firm exact s leaked) (hf : Family os)
    (hcalls : s.calls = ⟨.load σ ctrl size, guard⟩ ::ₘ rest) (hσ : σ ∈ slots) (hnames : Names os ctrl size) :
    Advances a os slots firm exact s leaked rest (.load σ ctrl size) s.world := by
  obtain ⟨o, ho, rfl, -⟩ := id hnames
  have hwatch := hi.pinned hcalls rfl ho rfl
  have hrun := (hi.agrees o ho).load_strong (hf.wf o ho) hwatch
  have hmem : (⟨.load σ o.ctrl size, guard⟩ : Access) ∈ s.calls := hcalls ▸ Multiset.mem_cons_self _ _
  by_cases hzero : (s.total a slots leaked o).strong = 0
  · refine ⟨.done (.ok .nothing), s.world, fun _ => 0, ?_, Acts.still hi hcalls ?_ trivial False.elim ?_ ?_ ?_⟩
    · simp only [Phase.next, hrun, if_pos hzero]
    · exact fun _ => add_zero _
    · exact fun τ c n hpin => by cases hpin
    · rfl
    · exact fun _ => ⟨fun _ => rfl, rfl, id⟩
  · refine ⟨.bump σ o.ctrl size, s.world, fun _ => 0, ?_, Acts.still hi hcalls ?_ ⟨hσ, hnames⟩ id ?_ ?_ ?_⟩
    · simp only [Phase.next, hrun, if_neg hzero]
    · exact fun _ => add_zero _
    · intro τ c n hpin
      cases hpin
      exact hi.readers _ hmem σ o.ctrl size rfl
    · rfl
    · exact fun _ => ⟨fun _ => rfl, rfl, id⟩

/-- A step on a counter of `o` after which the call has nothing left to pin. -/
theorem Acts.counts {ph' : Phase} {w' : World} (hi : Inv a os slots firm exact s leaked) (hf : Family os)
    (hl : Layout os slots) (hcalls : s.calls = ⟨ph, guard⟩ ::ₘ rest) (ho : o ∈ os) (hon : ph.On o) (hon' : ph'.On o)
    (leak : Ledger) (hnone : newlyFreed s.world w' = []) (ht : Touches a.stack o s.freed s.freed s.world w')
    (hA : Agrees a o (ph'.share o + (s.others a slots leaked rest o + leak)) s.freed w')
    (hpin : ph'.pinning = none)
    (hsound : ph'.Sound a os slots firm) (hlocked : ¬ ph'.Locked)
    (hsettles : ph.displaces ph' + ph.owes = ph.releases ph' + ph.loses ph' + ph'.owes)
    (hclean : exact → leak = 0 ∧ ph.loses ph' = 0 ∧ ¬ ph'.Undoing) :
    Acts a os slots firm exact s leaked ph rest ph' w' fun x => if x.ctrl = o.ctrl then leak else 0 := by
  have hfreed : s.freed ++ newlyFreed s.world w' = s.freed := by rw [hnone, List.append_nil]
  refine Acts.touch hi hf hl hcalls ho hon hon' leak (by rwa [hfreed]) (by rwa [hfreed]) ?_ hsound
    (fun h => absurd h hlocked) (fun σ ctrl size h => ?_) hsettles hclean
  · rintro ⟨t, ht, σ, size, htpin⟩
    have hmem : t ∈ s.calls := hcalls ▸ Multiset.mem_cons_of_mem ht
    have hbefore := (hi.readers t hmem σ o.ctrl size htpin).2 o ho rfl
    rw [State.total_cons hcalls] at hbefore
    rwa [keep_eq ((State.total_cons hcalls o) ▸ hi.agrees o ho) hA rfl]
  · rw [hpin] at h
    cases h

theorem Phase.on_none {ph : Phase} (h : ph.holding = none) (o : BStackRc) : ph.On o := fun _ _ hsome => by
  rw [h] at hsome
  cases hsome

theorem Phase.on_some {ph : Phase} {L : Ledger} (h : ph.holding = some (o.ctrl, L)) : ph.On o := fun _ _ hsome => by
  rw [h] at hsome
  cases hsome
  rfl

theorem Phase.share_self {ph : Phase} {L : Ledger} (h : ph.holding = some (o.ctrl, L)) : ph.share o = L := by
  rw [Phase.share_some h, if_pos rfl]

theorem advances_bump (hi : Inv a os slots firm exact s leaked) (hf : Family os) (hl : Layout os slots)
    (hcalls : s.calls = ⟨.bump σ ctrl size, guard⟩ ::ₘ rest) (hσ : σ ∈ slots) (hnames : Names os ctrl size)
    (hroom : σ.IsVariant → (s.world.files a.stack).bytes.word (ctrl.start + CTRL_STRONG_OFFSET) + 1 < 2 ^ 64) :
    Advances a os slots firm exact s leaked rest (.bump σ ctrl size) s.world := by
  obtain ⟨o, ho, rfl, -⟩ := id hnames
  obtain ⟨result, overflow, w', hrun, hnone, ht, hA, hflag⟩ :=
    bump_strong (hf.wf o ho) (hi.agrees o ho) (hi.pinned hcalls rfl ho rfl)
  rw [State.total_cons hcalls, Phase.share_none rfl, zero_add] at hA
  have hon : (Phase.bump σ o.ctrl size).On o := Phase.on_none rfl o
  cases overflow with
  | true =>
      have hvariant : ¬ σ.IsVariant := fun h => Bool.noConfusion (hflag (hroom h))
      rw [if_pos (.inl rfl)] at hA
      refine ⟨.done (.error Refcount.overflowErr), w', _, ?_, Acts.counts hi hf hl hcalls ho hon (Phase.on_none rfl o) 0
        hnone ht ?_ rfl trivial id rfl fun _ => ⟨rfl, rfl, id⟩⟩
      · cases result <;> simp only [Phase.next, hrun, Phase.settle_of_not_variant hvariant]
      · rwa [Phase.share_none rfl, zero_add, add_zero]
  | false =>
      cases result with
      | none =>
          rw [if_pos (.inr rfl)] at hA
          refine ⟨.done (.ok .nothing), w', _, by simp only [Phase.next, hrun], Acts.counts hi hf hl hcalls ho hon
            (Phase.on_none rfl o) 0 hnone ht ?_ rfl trivial id rfl fun _ => ⟨rfl, rfl, id⟩⟩
          rwa [Phase.share_none rfl, zero_add, add_zero]
      | some v =>
          rw [if_neg (by simp)] at hA
          refine ⟨.forward σ o.ctrl size, w', _, by simp only [Phase.next, hrun], Acts.counts hi hf hl hcalls ho hon
            (Phase.on_some rfl) 0 hnone ht ?_ rfl ⟨hσ, hnames⟩ id rfl fun _ => ⟨rfl, rfl, id⟩⟩
          · rwa [Phase.share_self rfl, add_zero]

theorem advances_forward (hi : Inv a os slots firm exact s leaked) (hf : Family os)
    (hcalls : s.calls = ⟨.forward σ ctrl size, guard⟩ ::ₘ rest) (hnames : Names os ctrl size) :
    Advances a os slots firm exact s leaked rest (.forward σ ctrl size) s.world := by
  obtain ⟨o, ho, rfl, rfl⟩ := hnames
  have hA := hi.agrees o ho
  rw [State.total_cons hcalls, Phase.share_self rfl] at hA
  have hrun := hA.load_forward (hf.wf o ho) (Ledger.watchers_of_strong (Nat.add_pos_left Nat.one_pos _))
  refine ⟨.done (.ok (.strong o)), s.world, fun _ => 0, ?_, Acts.still hi hcalls ?_ ho False.elim ?_ ?_ ?_⟩
  · simp only [Phase.next, hrun]
  · exact fun _ => add_zero _
  · exact fun τ c n hpin => by cases hpin
  · rfl
  · exact fun _ => ⟨fun _ => rfl, rfl, id⟩

theorem advances_unclaim (hi : Inv a os slots firm exact s leaked) (hf : Family os) (hl : Layout os slots)
    (hcalls : s.calls = ⟨.unclaim σ ctrl size e, guard⟩ ::ₘ rest) (hvariant : ¬ σ.IsVariant)
    (hnames : Names os ctrl size) : Advances a os slots firm exact s leaked rest (.unclaim σ ctrl size e) s.world := by
  obtain ⟨o, ho, rfl, -⟩ := id hnames
  have hA := hi.agrees o ho
  rw [State.total_cons hcalls, Phase.share_self rfl] at hA
  have hundo := hi.not_exact hcalls trivial
  obtain ⟨prev, w', hrun, hnone, ht, hA'⟩ := sub_strong (hf.wf o ho) hA
  by_cases hlast : prev = 1
  · rw [if_pos hlast] at hA'
    refine ⟨.retry σ o.ctrl size e, w', _, by simp only [Phase.next, hrun, if_pos hlast], Acts.counts hi hf hl hcalls ho
      (Phase.on_some rfl) (Phase.on_some rfl) 0 hnone ht ?_ rfl ⟨hvariant, hnames⟩ id rfl fun h => absurd h hundo⟩
    · rwa [Phase.share_self rfl, add_zero]
  · rw [if_neg hlast] at hA'
    refine ⟨.done (.error e), w', _, ?_, Acts.counts hi hf hl hcalls ho (Phase.on_some rfl) (Phase.on_none rfl o) 0
      hnone ht ?_ rfl trivial id rfl fun h => absurd h hundo⟩
    · simp only [Phase.next, hrun, if_neg hlast, Phase.settle_of_not_variant hvariant]
    · rwa [Phase.share_none rfl, zero_add, add_zero]

theorem advances_retry (hi : Inv a os slots firm exact s leaked) (hf : Family os)
    (hcalls : s.calls = ⟨.retry σ ctrl size e, guard⟩ ::ₘ rest) (hvariant : ¬ σ.IsVariant)
    (hnames : Names os ctrl size) : Advances a os slots firm exact s leaked rest (.retry σ ctrl size e) s.world := by
  obtain ⟨o, ho, rfl, -⟩ := id hnames
  have hA := hi.agrees o ho
  rw [State.total_cons hcalls, Phase.share_self rfl] at hA
  have hundo := hi.not_exact hcalls trivial
  have hrun := hA.load_forward (hf.wf o ho) (Ledger.watchers_of_last (Nat.add_pos_left Nat.one_pos _))
  refine ⟨.releasing σ o.ctrl (strongReleaseCtrl a ⟨o.data.start, size⟩ o.ctrl) e, s.world, fun _ => 0, ?_,
    Acts.still hi hcalls ?_ ⟨hvariant, o, ho, rfl, _, rfl⟩ False.elim ?_ ?_ ?_⟩
  · simp only [Phase.next, hrun]
  · exact fun _ => add_zero _
  · exact fun τ c n hpin => by cases hpin
  · rfl
  · exact fun h => (hundo h).elim

theorem advances_releasing (hi : Inv a os slots firm exact s leaked) (hf : Family os) (hl : Layout os slots)
    {code : Script IoError World Unit} (hcalls : s.calls = ⟨.releasing σ ctrl code e, guard⟩ ::ₘ rest)
    (hvariant : ¬ σ.IsVariant) (ho : o ∈ os) (hctrl : o.ctrl = ctrl) {data : Range}
    (hcode : code = strongReleaseCtrl a data ctrl) :
    Advances a os slots firm exact s leaked rest (.releasing σ ctrl code e) s.world := by
  subst hctrl hcode
  have hA := hi.agrees o ho
  rw [State.total_cons hcalls, Phase.share_self rfl] at hA
  have hundo := hi.not_exact hcalls trivial
  obtain ⟨prev, w', hrun, hnone, ht, hA'⟩ := sub_strong_again (hf.wf o ho) hA
  refine ⟨.done (.error e), w', _, ?_, Acts.counts hi hf hl hcalls ho (Phase.on_some rfl) (Phase.on_none rfl o)
    ⟨0, 1, 0, 0, 0⟩ hnone ht ?_ rfl trivial id rfl fun h => absurd h hundo⟩
  · simp only [Phase.next, strongReleaseCtrl_code (hf.wf o ho), Script.advance, hrun,
      Phase.settle_of_not_variant hvariant]
  · rw [Phase.share_none rfl, zero_add, add_comm]
    exact hA'

theorem advances_dropStrong (hi : Inv a os slots firm exact s leaked) (hf : Family os) (hl : Layout os slots)
    (hcalls : s.calls = ⟨.dropStrong o, guard⟩ ::ₘ rest) (ho : o ∈ os) :
    Advances a os slots firm exact s leaked rest (.dropStrong o) s.world := by
  have hA := hi.agrees o ho
  rw [State.total_cons hcalls, Phase.share_self rfl] at hA
  obtain ⟨prev, w', hrun, hnone, ht, hA'⟩ := sub_strong (hf.wf o ho) hA
  by_cases hlast : prev = 1
  · rw [if_pos hlast] at hA'
    refine ⟨.freeData o, w', _, by simp only [Phase.next, hrun, if_pos hlast], Acts.counts hi hf hl hcalls ho
      (Phase.on_some rfl) (Phase.on_some rfl) 0 hnone ht ?_ rfl ho id rfl fun _ => ⟨rfl, rfl, id⟩⟩
    · rwa [Phase.share_self rfl, add_zero]
  · rw [if_neg hlast] at hA'
    refine ⟨.done (.ok .nothing), w', _, by simp only [Phase.next, hrun, if_neg hlast], Acts.counts hi hf hl hcalls ho
      (Phase.on_some rfl) (Phase.on_none rfl o) 0 hnone ht ?_ rfl trivial id rfl fun _ => ⟨rfl, rfl, id⟩⟩
    · rwa [Phase.share_none rfl, zero_add, add_zero]

theorem advances_freeData (hi : Inv a os slots firm exact s leaked) (hf : Family os) (hl : Layout os slots)
    (hcalls : s.calls = ⟨.freeData o, guard⟩ ::ₘ rest) (ho : o ∈ os) :
    Advances a os slots firm exact s leaked rest (.freeData o) s.world := by
  have hA := hi.agrees o ho
  rw [State.total_cons hcalls, Phase.share_self rfl] at hA
  obtain ⟨hrun, ht, hA'⟩ := free_data (hf.wf o ho) hA
  have hnew : newlyFreed s.world (s.world.release a.stack o.data) = [(a.stack, o.data)] := newlyFreed_release ..
  rw [← hnew] at ht hA'
  have hself : Agrees a o ((Phase.payWeak o.ctrl .handle).share o + (s.others a slots leaked rest o + 0))
      (s.freed ++ newlyFreed s.world (s.world.release a.stack o.data)) (s.world.release a.stack o.data) := by
    rwa [Phase.share_self rfl, add_zero]
  refine ⟨.payWeak o.ctrl .handle, _, _, by simp only [Phase.next, hrun], Acts.touch hi hf hl hcalls ho
    (Phase.on_some rfl) (Phase.on_some rfl) 0 ht hself ?_ ⟨⟨o, ho, rfl⟩, .inl rfl⟩ False.elim
    (fun _ _ _ h => by cases h) rfl fun _ => ⟨rfl, rfl, id⟩⟩
  intro _
  rw [Phase.share_self rfl]
  exact Ledger.keep_pos (Ledger.watchers_of_weak (Nat.add_pos_left Nat.one_pos _))

theorem Payer.finish_ok (h : payer = .handle ∨ payer = .setter) : payer.finish (.ok ()) = .ok .nothing := by
  rcases h with rfl | rfl
  · rfl
  · rfl

/-- The last watcher frees the control block. Only a reader of a slot that is not firm may still be on its way there. -/
theorem advances_freeCtrl (hi : Inv a os slots firm exact s leaked) (hf : Family os) (hl : Layout os slots)
    (hcalls : s.calls = ⟨.freeCtrl ctrl payer, guard⟩ ::ₘ rest) (ho : o ∈ os) (hctrl : o.ctrl = ctrl)
    (hpayer : payer = .handle ∨ payer = .setter)
    (hreaders : ∀ t ∈ s.calls, ∀ σ size, t.phase.pinning = some (σ, ctrl, size) → firm σ) :
    Advances a os slots firm exact s leaked rest (.freeCtrl ctrl payer) s.world := by
  subst hctrl
  have hA := hi.agrees o ho
  rw [State.total_cons hcalls, Phase.share_self rfl] at hA
  obtain ⟨hrun, ht, hA'⟩ := free_ctrl (hf.wf o ho) hA
  have hnew : newlyFreed s.world (s.world.release a.stack o.ctrl) = [(a.stack, o.ctrl)] := newlyFreed_release ..
  rw [← hnew] at ht hA'
  have hself : Agrees a o ((Phase.done (.ok .nothing)).share o + (s.others a slots leaked rest o + 0))
      (s.freed ++ newlyFreed s.world (s.world.release a.stack o.ctrl)) (s.world.release a.stack o.ctrl) := by
    rwa [Phase.share_none rfl, zero_add, add_zero]
  refine ⟨.done (.ok .nothing), _, _,
    by simp only [Phase.next, hrun, Payer.finish_ok hpayer], Acts.touch hi hf hl hcalls
    ho (Phase.on_some rfl) (Phase.on_none rfl o) 0 ht hself ?_ trivial False.elim (fun _ _ _ h => by cases h) rfl
    fun _ => ⟨rfl, rfl, id⟩⟩
  rintro ⟨t, htr, σ, n, hpin⟩
  have hmem : t ∈ s.calls := hcalls ▸ Multiset.mem_cons_of_mem htr
  -- a firm slot still names the object, so the count that was paid was not the last
  have htarget := (hi.readers t hmem σ o.ctrl n hpin).1 (hreaders t hmem σ n hpin)
  have hkeep : 0 < (s.others a slots leaked rest o).keep :=
    Ledger.keep_pos (others_watched ((hi.sound t hmem).slot_mem hpin) htarget rfl)
  have hcount := hA.ctrl_freed
  rw [keep_closing] at hcount
  omega

theorem advances_payWeak (hi : Inv a os slots firm exact s leaked) (hf : Family os) (hl : Layout os slots)
    (hcalls : s.calls = ⟨.payWeak ctrl payer, guard⟩ ::ₘ rest) (ho : o ∈ os) (hctrl : o.ctrl = ctrl)
    (hpayer : payer = .handle ∨ payer = .setter) :
    Advances a os slots firm exact s leaked rest (.payWeak ctrl payer) s.world := by
  subst hctrl
  have hA := hi.agrees o ho
  rw [State.total_cons hcalls, Phase.share_self rfl] at hA
  have hsettles : ∀ ph' : Phase, ph'.owes = 0 → (∀ e, ph' ≠ .done (.ok (.lost e))) →
      (Phase.payWeak o.ctrl payer).displaces ph' + (Phase.payWeak o.ctrl payer).owes =
        (Phase.payWeak o.ctrl payer).releases ph' + (Phase.payWeak o.ctrl payer).loses ph' + ph'.owes ∧
      (Phase.payWeak o.ctrl payer).loses ph' = 0 := by
    intro ph' howes hlost
    rw [howes]
    rcases hpayer with rfl | rfl
    · exact ⟨rfl, rfl⟩
    · have hreleases : (Phase.payWeak o.ctrl .setter).releases ph' = {o.ctrl.start} ∧
          (Phase.payWeak o.ctrl .setter).loses ph' = 0 := by
        unfold Phase.releases Phase.loses
        split
        · exact absurd rfl (hlost _)
        · split
          · exact absurd rfl (hlost _)
          · exact ⟨by simp_all, rfl⟩
        · simp_all
      rw [hreleases.1, hreleases.2]
      exact ⟨by simp [Phase.displaces, Phase.owes], rfl⟩
  obtain ⟨w', hrun, hnone, ht, hA'⟩ := sub_weak (hf.wf o ho) hA
  by_cases hone : (s.world.files a.stack).bytes.word (o.ctrl.start + CTRL_WEAK_OFFSET) = 1
  · rw [if_pos hone] at hA'
    obtain ⟨hsettle, hloses⟩ := hsettles (.freeCtrl o.ctrl payer) rfl fun _ h => by cases h
    refine ⟨.freeCtrl o.ctrl payer, w', _, by simp only [Phase.next, hrun, if_pos hone], Acts.counts hi hf hl hcalls ho
      (Phase.on_some rfl) (Phase.on_some rfl) 0 hnone ht ?_ rfl ⟨⟨o, ho, rfl⟩, hpayer⟩ id hsettle
      fun _ => ⟨rfl, hloses, id⟩⟩
    rwa [Phase.share_self rfl, add_zero]
  · rw [if_neg hone] at hA'
    obtain ⟨hsettle, hloses⟩ := hsettles (.done (.ok .nothing)) rfl fun _ h => by cases h
    refine ⟨.done (.ok .nothing), w', _, by simp only [Phase.next, hrun, if_neg hone, Payer.finish_ok hpayer],
      Acts.counts hi hf hl hcalls ho (Phase.on_some rfl) (Phase.on_none rfl o) 0 hnone ht ?_ rfl trivial id hsettle
      fun _ => ⟨rfl, hloses, id⟩⟩
    rwa [Phase.share_none rfl, zero_add, add_zero]

/-- A step whose I/O fails leaks what the call held, or leaves it with the caller. -/
theorem advances_failing (hi : Inv a os slots firm exact s leaked) (hf : Family os)
    (hcalls : s.calls = ⟨ph, guard⟩ ::ₘ rest) (hrunning : ph.Running) (hexact : ¬ exact)
    (hvariant : ∀ σ ctrl size, ph = .load σ ctrl size ∨ ph = .bump σ ctrl size ∨ ph = .forward σ ctrl size →
      ¬ σ.IsVariant) :
    Advances a os slots firm exact s leaked rest ph s.world.failing := by
  have hsound : ph.Sound a os slots firm := hi.sound ⟨ph, guard⟩ (hcalls ▸ Multiset.mem_cons_self _ _)
  have hnext := Phase.next_failing (hsound.fresh hf) hrunning hi.quiet
  have hlost : ∀ {P : Prop}, exact → P := fun h => absurd h hexact
  have hspent : ∀ {ph' leak}, Acts a os slots firm exact s leaked ph rest ph' s.world leak →
      Acts a os slots firm exact s leaked ph rest ph' (ph.spent a s.world) leak :=
    fun h => h.alike (ph.quiet_spent hi.quiet) (ph.files_spent) (ph.freed_spent)
  -- the call ends with an error, and nobody holds its count any more
  have hends : ∀ out, ph.failed = .done (.error out) → ph.owes = 0 → ph.displaces (.done (.error out)) = 0 →
      ph.releases (.done (.error out)) = 0 → ph.loses (.done (.error out)) = 0 →
      Advances a os slots firm exact s leaked rest ph s.world.failing := by
    intro out hfailed howes hdisplaces hreleases hloses
    refine ⟨.done (.error out), _, ph.share, hfailed ▸ hnext, hspent (Acts.still hi hcalls ?_ trivial False.elim
      (fun _ _ _ h => by cases h) ?_ hlost)⟩
    · intro o
      rw [Phase.share_none rfl, zero_add]
    · rw [howes, hdisplaces, hreleases, hloses]
      rfl
  have hkeeps : ∀ ph', ph.failed = ph' → ph'.holding = ph.holding → ph'.Sound a os slots firm → ¬ ph'.Locked →
      ph'.pinning = none → ph.displaces ph' + ph.owes = ph.releases ph' + ph.loses ph' + ph'.owes →
      Advances a os slots firm exact s leaked rest ph s.world.failing := by
    rintro ph' rfl hholding hsound' hlocked hpin hsettles
    refine ⟨_, _, fun _ => 0, hnext,
      hspent (Acts.still hi hcalls ?_ hsound' (fun h => absurd h hlocked) ?_ hsettles hlost)⟩
    · intro o
      rw [Phase.share, hholding, add_zero, Phase.share]
    · intro σ ctrl size h
      rw [hpin] at h
      cases h
  cases ph with
  | set off size new =>
      obtain ⟨-, o, ho, rfl, -⟩ := hsound
      have hctrl : (⟨o.ctrl.start, CONTROL_SIZE⟩ : Range) = o.ctrl := by rw [← (hf.wf o ho).size]
      refine hkeeps (.done (.ok (.recovered ioFault ⟨o.ctrl⟩))) ?_ rfl ⟨o, ho, rfl⟩ id rfl rfl
      simp only [Phase.failed, hctrl]
  | replace e start new =>
      refine hkeeps _ rfl ?_ ?_ id rfl rfl
      · cases new <;> rfl
      · cases new with
        | weak disc h =>
            obtain ⟨-, -, -, size, -, o, ho, rfl, -⟩ := hsound
            exact ⟨o, ho, rfl⟩
        | other disc payload => exact trivial
  | locate σ => exact hends ioFault rfl rfl rfl rfl rfl
  | load σ ctrl size =>
      exact hends ioFault (Phase.settle_of_not_variant (hvariant σ ctrl size (.inl rfl)) _) rfl rfl rfl rfl
  | bump σ ctrl size =>
      exact hends ioFault (Phase.settle_of_not_variant (hvariant σ ctrl size (.inr (.inl rfl))) _) rfl rfl rfl rfl
  | forward σ ctrl size =>
      exact hkeeps (.unclaim σ ctrl size ioFault) rfl rfl ⟨hvariant σ ctrl size (.inr (.inr rfl)), hsound.2⟩ id rfl rfl
  | unclaim σ ctrl size e => exact hends ioFault (Phase.settle_of_not_variant hsound.1 _) rfl rfl rfl rfl
  | retry σ ctrl size e => exact hends e (Phase.settle_of_not_variant hsound.1 _) rfl rfl rfl rfl
  | releasing σ ctrl code e => exact hends e (Phase.settle_of_not_variant hsound.1 _) rfl rfl rfl rfl
  | dropStrong h => exact hends ioFault rfl rfl rfl rfl rfl
  | freeData h => exact hends ioFault rfl rfl rfl rfl rfl
  | payWeak ctrl payer =>
      obtain ⟨-, rfl | rfl⟩ := hsound
      · exact hends ioFault rfl rfl rfl rfl rfl
      · refine ⟨.done (.ok (.lost ioFault)), _, fun o => Phase.share o (.payWeak ctrl .setter), hnext,
          hspent (Acts.still hi hcalls (fun o => ?_) trivial False.elim (fun _ _ _ h => by cases h) ?_ hlost)⟩
        · rw [Phase.share_none rfl, zero_add]
        · simp [Phase.displaces, Phase.owes, Phase.releases, Phase.loses]
  | freeCtrl ctrl payer =>
      obtain ⟨-, rfl | rfl⟩ := hsound
      · exact hends ioFault rfl rfl rfl rfl rfl
      · refine ⟨.done (.ok (.lost ioFault)), _, fun o => Phase.share o (.freeCtrl ctrl .setter), hnext,
          hspent (Acts.still hi hcalls (fun o => ?_) trivial False.elim (fun _ _ _ h => by cases h) rfl hlost)⟩
        rw [Phase.share_none rfl, zero_add]
  | done out => exact hrunning.elim

end Phases

end WeakSlot

end BStackRaii
