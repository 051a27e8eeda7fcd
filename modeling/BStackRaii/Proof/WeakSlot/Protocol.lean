import BStackRaii.Proof.WeakSlot.Swaps
/-!
# Every run keeps the invariant

The step lemma of the slots, and from it the run lemma. The start of a call, its return and the lock only move
counts between handles and calls.
-/

namespace BStackRaii

namespace WeakSlot

variable {a : Allocator} {os : List BStackRc} {slots : List Slot} {firm : Slot → Prop} {exact : Prop} {s s' : State}
  {leaked : BStackRc → Ledger} {o : BStackRc}

/-! ### Starts, returns and the lock -/

/-- A step that moves counts between handles and calls. -/
theorem Inv.rearrange (hi : Inv a os slots firm exact s leaked) (hworld : s'.world = s.world)
    (hfreed : s'.freed = s.freed)
    (hlogs : s'.displaced = s.displaced ∧ s'.released = s.released ∧ s'.lost = s.lost)
    (htotal : ∀ o ∈ os, s'.total a slots leaked o = s.total a slots leaked o)
    (hstrong : ∀ h ∈ s'.strong, h ∈ os) (hweak : ∀ h ∈ s'.weak, ∃ o ∈ os, h = ⟨o.ctrl⟩)
    (hguards : ∀ t ∈ s'.calls, (t.phase.Locked → t.guard ≠ .free) ∧ (t.guard = .waiting → t.phase.Entry))
    (hphases : ∀ t ∈ s'.calls, (∃ t₀ ∈ s.calls, t₀.phase = t.phase) ∨
      t.phase.Sound a os slots firm ∧ t.phase.pinning = none ∧ ¬ t.phase.Undoing)
    (hholders : s'.calls.countP (fun t => t.guard = .holding) = if s'.locked then 1 else 0)
    (howed : s'.owed = s.owed) : Inv a os slots firm exact s' leaked where
  quiet := hworld ▸ hi.quiet
  agrees o ho := by
    rw [htotal o ho, hworld, hfreed]
    exact hi.agrees o ho
  strong := hstrong
  weak := hweak
  sound t ht := by
    rcases hphases t ht with ⟨t₀, ht₀, heq⟩ | ⟨hsound, -, -⟩
    · exact heq ▸ hi.sound t₀ ht₀
    · exact hsound
  guarded t ht := (hguards t ht).1
  waiting t ht := (hguards t ht).2
  holders := hholders
  inside := hworld ▸ hi.inside
  named := hworld ▸ hi.named
  readers t ht σ ctrl size hpin := by
    rcases hphases t ht with ⟨t₀, ht₀, heq⟩ | ⟨-, hnone, -⟩
    · obtain ⟨hfirm, hwatch⟩ := hi.readers t₀ ht₀ σ ctrl size (heq ▸ hpin)
      refine ⟨hworld ▸ hfirm, fun o ho hctrl => ?_⟩
      rw [htotal o ho]
      exact hwatch o ho hctrl
    · rw [hnone] at hpin
      cases hpin
  settled := by
    rw [hlogs.1, hlogs.2.1, hlogs.2.2, howed]
    exact hi.settled
  exact hexact := by
    obtain ⟨hleaked, hlost, hundo⟩ := hi.exact hexact
    refine ⟨hleaked, hlogs.2.2.trans hlost, fun t ht => ?_⟩
    rcases hphases t ht with ⟨t₀, ht₀, heq⟩ | ⟨-, -, hnot⟩
    · exact heq ▸ hundo t₀ ht₀
    · exact hnot

theorem Inv.starts (hi : Inv a os slots firm exact s leaked) {ph : Phase} {guard : Guard} {strong : Multiset BStackRc}
    {weak : Multiset BStackWeak} (hstrong : strong ≤ s.strong) (hweak : weak ≤ s.weak)
    (hshare : ∀ o ∈ os, (⟨strong.count o, 0, weak.count ⟨o.ctrl⟩, 0, 0⟩ : Ledger) + ph.share o =
      ⟨s.strong.count o, 0, s.weak.count ⟨o.ctrl⟩, 0, 0⟩)
    (hsound : ph.Sound a os slots firm) (hlocked : ph.Locked → guard ≠ .free) (hentry : guard = .waiting → ph.Entry)
    (hholding : guard ≠ .holding) (hpin : ph.pinning = none) (howes : ph.owes = 0) (hundo : ¬ ph.Undoing) :
    Inv a os slots firm exact { s with strong := strong, weak := weak, calls := ⟨ph, guard⟩ ::ₘ s.calls } leaked := by
  refine hi.rearrange rfl rfl ⟨rfl, rfl, rfl⟩ (fun o ho => ?_)
    (fun h hmem => hi.strong h (Multiset.mem_of_le hstrong hmem))
    (fun h hmem => hi.weak h (Multiset.mem_of_le hweak hmem)) ?_ ?_ ?_ ?_
  · have hmove := hshare o ho
    have hparts := And.intro (congrArg Ledger.strong hmove) (And.intro (congrArg Ledger.last hmove)
      (And.intro (congrArg Ledger.weak hmove)
        (And.intro (congrArg Ledger.closing hmove) (congrArg Ledger.moved hmove))))
    simp only [Ledger.strong_add, Ledger.last_add, Ledger.weak_add, Ledger.closing_add, Ledger.moved_add] at hparts
    simp only [State.total, State.handles, State.inFlight_cons, State.slotsOf]
    ext
    all_goals simp only [Ledger.strong_add, Ledger.last_add, Ledger.weak_add, Ledger.closing_add, Ledger.moved_add]
    all_goals omega
  · intro t ht
    rcases Multiset.mem_cons.mp ht with rfl | ht
    · exact ⟨hlocked, hentry⟩
    · exact ⟨hi.guarded t ht, hi.waiting t ht⟩
  · intro t ht
    rcases Multiset.mem_cons.mp ht with rfl | ht
    · exact .inr ⟨hsound, hpin, hundo⟩
    · exact .inl ⟨t, ht, rfl⟩
  · rw [Multiset.countP_cons, if_neg hholding]
    exact hi.holders
  · rw [State.owed, Multiset.map_cons, Multiset.sum_cons, howes, zero_add]
    rfl

/-- A call returns, and its caller has the count it held. -/
theorem Inv.returns (hi : Inv a os slots firm exact s leaked) {out : Except IoError Handed} {guard : Guard}
    {rest : Multiset Access} (hcalls : s.calls = ⟨.done out, guard⟩ ::ₘ rest) {strong : Multiset BStackRc}
    {weak : Multiset BStackWeak} (hstrong : ∀ h ∈ strong, h ∈ os) (hweak : ∀ h ∈ weak, ∃ o ∈ os, h = ⟨o.ctrl⟩)
    (hshare : ∀ o ∈ os, (⟨strong.count o, 0, weak.count ⟨o.ctrl⟩, 0, 0⟩ : Ledger) =
      ⟨s.strong.count o, 0, s.weak.count ⟨o.ctrl⟩, 0, 0⟩ + (Phase.done out).share o) :
    Inv a os slots firm exact { s with
      strong := strong
      weak := weak
      calls := rest
      locked := if guard = .holding then false else s.locked } leaked := by
  have hmem : ∀ t ∈ rest, t ∈ s.calls := fun t ht => hcalls ▸ Multiset.mem_cons_of_mem ht
  refine hi.rearrange rfl rfl ⟨rfl, rfl, rfl⟩ (fun o ho => ?_) hstrong hweak
    (fun t ht => ⟨hi.guarded t (hmem t ht), hi.waiting t (hmem t ht)⟩) (fun t ht => .inl ⟨t, hmem t ht, rfl⟩) ?_ ?_
  · have hmove := hshare o ho
    have hparts := And.intro (congrArg Ledger.strong hmove) (And.intro (congrArg Ledger.last hmove)
      (And.intro (congrArg Ledger.weak hmove)
        (And.intro (congrArg Ledger.closing hmove) (congrArg Ledger.moved hmove))))
    simp only [Ledger.strong_add, Ledger.last_add, Ledger.weak_add, Ledger.closing_add, Ledger.moved_add] at hparts
    rw [State.total_cons hcalls]
    simp only [State.total, State.handles, State.others, State.slotsOf]
    ext
    all_goals simp only [Ledger.strong_add, Ledger.last_add, Ledger.weak_add, Ledger.closing_add, Ledger.moved_add]
    all_goals omega
  · have hcount := hi.holders
    rw [hcalls, Multiset.countP_cons] at hcount
    by_cases hholding : guard = .holding
    · rw [if_pos hholding] at hcount
      simp only [if_pos hholding, Bool.false_eq_true, if_false]
      split at hcount <;> omega
    · rw [if_neg hholding] at hcount
      simp only [if_neg hholding]
      exact hcount
  · rw [State.owed, State.owed_cons hcalls]
    exact (zero_add _).symm

theorem Inv.acquires (hi : Inv a os slots firm exact s leaked) {ph : Phase} {rest : Multiset Access}
    (hcalls : s.calls = ⟨ph, .waiting⟩ ::ₘ rest) (hfree : s.locked = false) :
    Inv a os slots firm exact { s with calls := ⟨ph, .holding⟩ ::ₘ rest, locked := true } leaked := by
  have hself : (⟨ph, .waiting⟩ : Access) ∈ s.calls := hcalls ▸ Multiset.mem_cons_self _ _
  have hmem : ∀ t ∈ rest, t ∈ s.calls := fun t ht => hcalls ▸ Multiset.mem_cons_of_mem ht
  refine hi.rearrange rfl rfl ⟨rfl, rfl, rfl⟩ (fun o _ => ?_) hi.strong hi.weak ?_ ?_ ?_ ?_
  · rw [State.total_cons hcalls]
    exact State.total_cons (t := ⟨ph, .holding⟩) rfl o
  · intro t ht
    rcases Multiset.mem_cons.mp ht with rfl | ht
    · exact ⟨fun _ => Guard.noConfusion, fun h => nomatch h⟩
    · exact ⟨hi.guarded t (hmem t ht), hi.waiting t (hmem t ht)⟩
  · intro t ht
    rcases Multiset.mem_cons.mp ht with rfl | ht
    · exact .inl ⟨_, hself, rfl⟩
    · exact .inl ⟨t, hmem t ht, rfl⟩
  · have hcount := hi.holders
    rw [hcalls, Multiset.countP_cons, hfree] at hcount
    rw [Multiset.countP_cons]
    simp only [reduceCtorEq, if_false, Bool.false_eq_true, if_true] at hcount ⊢
    omega
  · rw [State.owed_cons hcalls]
    exact State.owed_cons (t := ⟨ph, .holding⟩) rfl

/-- Other code runs. -/
theorem Inv.elsewhere (hi : Inv a os slots firm exact s leaked) (hf : Family os) {w : World}
    (h : LeavesAlone a.stack os slots s w) : Inv a os slots firm exact { s with world := w } leaked := by
  have htarget : ∀ σ ∈ slots, σ.target (w.files a.stack) = σ.target (s.world.files a.stack) :=
    fun σ hσ => Slot.target_congr (h.bytes σ hσ)
  have htotal : ∀ o, State.total a slots leaked { s with world := w } o = s.total a slots leaked o := by
    intro o
    rw [State.total, State.handles, slotsOf_congr (s := s) rfl htarget]
    rfl
  refine ⟨h.quiet, fun o ho => ?_, hi.strong, hi.weak, hi.sound, hi.guarded, hi.waiting, hi.holders, ?_, ?_, ?_,
    hi.settled, hi.exact⟩
  · rw [htotal]
    exact Agrees.elsewhere (s := ⟨s.world, ∅, ∅, 0, s.freed, 0⟩) (hf.wf o ho) (hi.agrees o ho) (h.objects o ho)
  · exact fun σ hσ => (hi.inside σ hσ).trans h.len
  · intro σ hσ ctrl size hnamed
    rw [htarget σ hσ] at hnamed
    exact hi.named σ hσ ctrl size hnamed
  · intro t ht σ ctrl size hpin
    rw [htarget σ ((hi.sound t ht).slot_mem hpin)]
    simp only [htotal]
    exact hi.readers t ht σ ctrl size hpin

/-! ### The step lemma -/

/-- What a run must not do: replace a firm slot, free a control block that the reader of one that is not firm is
about to touch, or fail an enum read. -/
def Permitted (a : Allocator) (firm : Slot → Prop) (s : State) : Act → Prop
  | .starts (.replace e start _) => ¬ firm (.variant e start)
  | .steps (.freeCtrl ctrl _) => ∀ t ∈ s.calls, ∀ σ size, t.phase.pinning = some (σ, ctrl, size) → firm σ
  | .steps (.bump σ ctrl _) =>
      σ.IsVariant → (s.world.files a.stack).bytes.word (ctrl.start + CTRL_STRONG_OFFSET) + 1 < 2 ^ 64
  | .fails (.load σ _ _) | .fails (.bump σ _ _) | .fails (.forward σ _ _) => ¬ σ.IsVariant
  | _ => True

theorem Inv.atomic (hi : Inv a os slots firm exact s leaked) (hf : Family os) (hl : Layout os slots) {ph : Phase}
    {guard : Guard} {rest : Multiset Access} (hcalls : s.calls = ⟨ph, guard⟩ ::ₘ rest) (hguard : guard ≠ .waiting)
    (hrunning : ph.Running) (hp : Permitted a firm s (.steps ph)) :
    ∃ leaked', Inv a os slots firm exact (s.act a ph guard rest s.world) leaked' := by
  have hsound : ph.Sound a os slots firm := hi.sound ⟨ph, guard⟩ (hcalls ▸ Multiset.mem_cons_self _ _)
  have hadvance : Advances a os slots firm exact s leaked rest ph s.world →
      ∃ leaked', Inv a os slots firm exact (s.act a ph guard rest s.world) leaked' := by
    rintro ⟨ph', w', leak, hnext, hacts⟩
    exact ⟨_, hi.acts hcalls hguard hnext hacts⟩
  cases ph with
  | set off size new => exact ⟨leaked, hi.set hf hl hcalls hguard⟩
  | replace e start new => exact ⟨leaked, hi.replace hf hl hcalls hguard⟩
  | locate σ => exact hadvance (advances_locate hi hl hcalls hsound)
  | load σ ctrl size => exact hadvance (advances_load hi hf hcalls hsound.1 hsound.2)
  | bump σ ctrl size => exact hadvance (advances_bump hi hf hl hcalls hsound.1 hsound.2 hp)
  | forward σ ctrl size => exact hadvance (advances_forward hi hf hcalls hsound.2)
  | unclaim σ ctrl size e => exact hadvance (advances_unclaim hi hf hl hcalls hsound.1 hsound.2)
  | retry σ ctrl size e => exact hadvance (advances_retry hi hf hcalls hsound.1 hsound.2)
  | releasing σ ctrl code e =>
      obtain ⟨hvariant, o, ho, hctrl, data, hcode⟩ := hsound
      exact hadvance (advances_releasing hi hf hl hcalls hvariant ho hctrl hcode)
  | dropStrong h => exact hadvance (advances_dropStrong hi hf hl hcalls hsound)
  | freeData h => exact hadvance (advances_freeData hi hf hl hcalls hsound)
  | payWeak ctrl payer =>
      obtain ⟨⟨o, ho, rfl⟩, hpayer⟩ := hsound
      exact hadvance (advances_payWeak hi hf hl hcalls ho rfl hpayer)
  | freeCtrl ctrl payer =>
      obtain ⟨⟨o, ho, rfl⟩, hpayer⟩ := hsound
      exact hadvance (advances_freeCtrl hi hf hl hcalls ho rfl hpayer hp)
  | done out => exact hrunning.elim

section Counts

variable {p : BStackRc} {strong : Multiset BStackRc} {weak : Multiset BStackWeak}

theorem count_strong (hf : Family os) (ho : o ∈ os) (hp : p ∈ os) (n : Nat) :
    (⟨(p ::ₘ strong).count o, 0, n, 0, 0⟩ : Ledger) =
      ⟨strong.count o, 0, n, 0, 0⟩ + if p.ctrl = o.ctrl then ⟨1, 0, 0, 0, 0⟩ else 0 := by
  rw [Multiset.count_cons]
  by_cases hctrl : p.ctrl = o.ctrl
  · obtain rfl := hf.eq_of_ctrl hp ho hctrl
    rw [if_pos rfl, if_pos rfl]
    rfl
  · rw [if_neg hctrl, if_neg fun h : o = p => hctrl (h ▸ rfl)]
    rfl

theorem count_weak (n : Nat) :
    (⟨n, 0, ((⟨p.ctrl⟩ : BStackWeak) ::ₘ weak).count ⟨o.ctrl⟩, 0, 0⟩ : Ledger) =
      ⟨n, 0, weak.count ⟨o.ctrl⟩, 0, 0⟩ + if p.ctrl = o.ctrl then ⟨0, 0, 1, 0, 0⟩ else 0 := by
  rw [Multiset.count_cons]
  by_cases hctrl : p.ctrl = o.ctrl
  · rw [if_pos hctrl, if_pos (by rw [hctrl])]
    rfl
  · rw [if_neg hctrl, if_neg fun h => hctrl (BStackWeak.mk.inj h).symm]
    rfl

end Counts

/-- Every step keeps the invariant. -/
theorem Step.inv {act : Act} (h : Step a os slots act s s') (hi : Inv a os slots firm exact s leaked) (hf : Family os)
    (hl : Layout os slots) (hp : Permitted a firm s act) (hexact : exact → ∀ ph, act ≠ .fails ph) :
    ∃ leaked', Inv a os slots firm exact s' leaked' := by
  cases h with
  | dropStrong h hmem =>
      have hh := hi.strong h hmem
      refine ⟨leaked, hi.starts (Multiset.erase_le ..) le_rfl (fun o ho => ?_) hh False.elim
        (fun h => nomatch h) (fun h => nomatch h) rfl rfl id⟩
      rw [Phase.share_some rfl, ← count_strong hf ho hh, Multiset.cons_erase hmem]
  | dropWeak h hmem =>
      obtain ⟨o, ho, rfl⟩ := hi.weak h hmem
      refine ⟨leaked, hi.starts le_rfl (Multiset.erase_le ..) (fun x _ => ?_) ⟨⟨o, ho, rfl⟩, .inl rfl⟩
        False.elim (fun h => nomatch h) (fun h => nomatch h) rfl rfl id⟩
      rw [Phase.share_some rfl, ← count_weak, Multiset.cons_erase hmem]
  | set off size h hslot hmem hsize =>
      obtain ⟨o, ho, rfl, hlen⟩ := hsize
      refine ⟨leaked, hi.starts le_rfl (Multiset.erase_le ..) (fun x _ => ?_) ⟨hslot, o, ho, rfl, hlen⟩
        (fun _ h => nomatch h) (fun _ => trivial) (fun h => nomatch h) rfl rfl id⟩
      rw [Phase.share_some rfl, ← count_weak, Multiset.cons_erase hmem]
  | upgrade σ hslot =>
      refine ⟨leaked, hi.starts le_rfl le_rfl (fun x _ => ?_) hslot (fun h => ?_) (fun _ => trivial) ?_ rfl rfl id⟩
      · rw [Phase.share_none rfl, add_zero]
      · have hlocks : σ.Locks := h
        rw [if_pos hlocks]
        exact Guard.noConfusion
      · split <;> exact Guard.noConfusion
  | replaceWeak e start disc h hslot hmem hfits =>
      obtain ⟨hdisc, size, hvariant, o, ho, rfl, hlen⟩ := hfits
      refine ⟨leaked, hi.starts le_rfl (Multiset.erase_le ..) (fun x _ => ?_)
        ⟨hslot, hp, hdisc, size, hvariant, o, ho, rfl, hlen⟩ False.elim (fun h => nomatch h) (fun h => nomatch h)
        rfl rfl id⟩
      rw [Phase.share_some rfl, ← count_weak, Multiset.cons_erase hmem]
  | replaceOther e start disc payload hslot hfits =>
      refine ⟨leaked, hi.starts le_rfl le_rfl (fun x _ => ?_) ⟨hslot, hp, hfits⟩ False.elim (fun h => nomatch h)
        (fun h => nomatch h) rfl rfl id⟩
      rw [Phase.share_none rfl, add_zero]
  | acquire ph rest hcalls hfree => exact ⟨leaked, hi.acquires hcalls hfree⟩
  | atomic ph guard rest hcalls hguard hrunning => exact hi.atomic hf hl hcalls hguard hrunning hp
  | fail ph guard rest hcalls hguard hrunning =>
      have hvariant : ∀ σ ctrl size, ph = .load σ ctrl size ∨ ph = .bump σ ctrl size ∨ ph = .forward σ ctrl size →
          ¬ σ.IsVariant := by
        rintro σ ctrl size (rfl | rfl | rfl)
        · exact hp
        · exact hp
        · exact hp
      obtain ⟨ph', w', leak, hnext, hacts⟩ :=
        advances_failing hi hf hcalls hrunning (fun h => hexact h ph rfl) hvariant
      exact ⟨_, hi.acts hcalls hguard hnext hacts⟩
  | finish out guard rest hcalls =>
      have hsound : (Phase.done out).Sound a os slots firm := hi.sound ⟨.done out,
        guard⟩ (hcalls ▸ Multiset.mem_cons_self _ _)
      have hnothing : (Phase.done out).holding = none → Inv a os slots firm exact { s with
          calls := rest
          locked := if guard = .holding then false else s.locked } leaked := fun hnone =>
        hi.returns hcalls hi.strong hi.weak fun o _ => by rw [Phase.share_none hnone, add_zero]
      have hhandle : ∀ o ∈ os, (Phase.done out).holding = some (o.ctrl, ⟨0, 0, 1, 0, 0⟩) →
          Inv a os slots firm exact { s with
            weak := ⟨o.ctrl⟩ ::ₘ s.weak
            calls := rest
            locked := if guard = .holding then false else s.locked } leaked := by
        intro o ho hholding
        refine hi.returns hcalls hi.strong (fun h hmem => ?_) fun x _ => ?_
        · rcases Multiset.mem_cons.mp hmem with rfl | hmem
          · exact ⟨o, ho, rfl⟩
          · exact hi.weak h hmem
        · rw [Phase.share_some hholding, ← count_weak]
      refine ⟨leaked, ?_⟩
      rcases out with e | r
      · exact hnothing rfl
      cases r with
      | strong h =>
          refine hi.returns hcalls (fun x hmem => ?_) hi.weak fun o ho => ?_
          · rcases Multiset.mem_cons.mp hmem with rfl | hmem
            · exact hsound
            · exact hi.strong x hmem
          · rw [Phase.share_some rfl, ← count_strong hf ho hsound]
      | value v =>
          cases v with
          | weak disc h =>
              obtain ⟨o, ho, rfl⟩ := hsound
              exact hhandle o ho rfl
          | other disc payload => exact hnothing rfl
      | recovered e h =>
          obtain ⟨o, ho, rfl⟩ := hsound
          exact hhandle o ho rfl
      | recoveredValue e v =>
          cases v with
          | weak disc h =>
              obtain ⟨o, ho, rfl⟩ := hsound
              exact hhandle o ho rfl
          | other disc payload => exact hnothing rfl
      | nothing => exact hnothing rfl
      | viewed disc payload => exact hnothing rfl
      | lost e => exact hnothing rfl
  | elsewhere w h => exact ⟨leaked, hi.elsewhere hf h⟩

/-! ### Runs -/

theorem Start.total (h : Start a os slots s) (o : BStackRc) : s.total a slots (fun _ => 0) o =
    ⟨s.strong.count o, 0, s.weak.count ⟨o.ctrl⟩ + s.slotsOf a slots o, 0, 0⟩ := by
  rw [State.total, h.idle, State.inFlight_zero, add_zero, add_zero, State.handles]

theorem Start.agrees (h : Start a os slots s) (ho : o ∈ os) :
    Agrees a o (s.total a slots (fun _ => 0) o) s.freed s.world := by
  have hdata := h.data o ho
  have hctrl := h.ctrl o ho
  have hphantom : (s.total a slots (fun _ => 0) o).phantom = if 0 < s.strong.count o then 1 else 0 := by
    rw [h.total, Ledger.phantom, add_zero]
  have hwatchers : (s.total a slots (fun _ => 0) o).watchers =
      s.weak.count ⟨o.ctrl⟩ + s.slotsOf a slots o + if 0 < s.strong.count o then 1 else 0 := by
    rw [Ledger.watchers, hphantom, h.total]
  have hkeep : (s.total a slots (fun _ => 0) o).keep =
      if 0 < s.strong.count o + s.weak.count ⟨o.ctrl⟩ + s.slotsOf a slots o then 1 else 0 := by
    have hclosing : (s.total a slots (fun _ => 0) o).closing = 0 := by rw [h.total]
    have hiff : 0 < (s.total a slots (fun _ => 0) o).watchers ↔
        0 < s.strong.count o + s.weak.count ⟨o.ctrl⟩ + s.slotsOf a slots o := by
      rw [hwatchers]
      split <;> omega
    simp only [Ledger.keep, hclosing, add_zero, hiff]
  have hnot : 0 < (s.total a slots (fun _ => 0) o).keep → ¬ s.CtrlFreed a o := by
    intro hpos
    rw [hkeep] at hpos
    split at hpos
    · rename_i hsome
      rw [if_pos hsome] at hctrl
      exact hctrl.2
    · omega
  refine ⟨h.quiet, ?_, ?_, ?_, ?_, ?_, ?_, ?_, ?_⟩
  · rw [hphantom]
    by_cases hpos : 0 < s.strong.count o
    · rw [if_pos hpos] at hdata ⊢
      rw [List.count_eq_zero_of_not_mem hdata.2]
    · rw [if_neg hpos] at hdata ⊢
      rw [hdata]
  · rw [hkeep]
    by_cases hpos : 0 < s.strong.count o + s.weak.count ⟨o.ctrl⟩ + s.slotsOf a slots o
    · rw [if_pos hpos] at hctrl ⊢
      rw [List.count_eq_zero_of_not_mem hctrl.2]
    · rw [if_neg hpos] at hctrl ⊢
      rw [hctrl]
  · intro hpos
    rw [hphantom] at hpos
    split at hpos
    · rename_i hsome
      rw [if_pos hsome] at hdata
      exact hdata.1
    · omega
  · intro hpos
    rw [hkeep] at hpos
    split at hpos
    · rename_i hsome
      rw [if_pos hsome] at hctrl
      exact hctrl.1
    · omega
  · intro hpos
    rw [h.total]
    exact h.strong_count o ho (hnot hpos)
  · intro hpos
    rw [hwatchers]
    exact h.weak_count o ho (hnot hpos)
  · exact fun hpos => h.forward o ho (hnot hpos)
  · rw [h.total]
    exact Nat.zero_le _

theorem Start.inv (h : Start a os slots s) : Inv a os slots firm exact s fun _ => 0 := by
  have hnone : ∀ t, t ∉ s.calls := fun t ht => Multiset.notMem_zero t (h.idle ▸ ht)
  refine ⟨h.quiet, fun o ho => h.agrees ho, h.strong, h.weak, fun t ht => absurd ht (hnone t),
    fun t ht => absurd ht (hnone t), fun t ht => absurd ht (hnone t), ?_, h.slots_inside, h.named,
    fun t ht => absurd ht (hnone t), ?_, fun _ => ⟨fun _ => rfl, h.none_lost, fun t ht => absurd ht (hnone t)⟩⟩
  · rw [h.idle, h.unlocked]
    rfl
  · rw [State.owed, h.idle, h.none_displaced, h.none_released, h.none_lost]
    rfl

/-- The run lemma. -/
theorem Run.inv (firm : Slot → Prop) (exact : Prop) {P : State → Act → Prop} (h : Run a os slots P s s')
    (hi : Inv a os slots firm exact s leaked)
    (hf : Family os) (hl : Layout os slots)
    (hp : ∀ {s s' : State} {act : Act} {leaked}, Inv a os slots firm exact s leaked → Step a os slots act s s' →
      P s act → Permitted a firm s act)
    (hexact : exact → ∀ s ph, ¬ P s (.fails ph)) : ∃ leaked', Inv a os slots firm exact s' leaked' := by
  induction h with
  | refl => exact ⟨leaked, hi⟩
  | tail _ hstep ih =>
      obtain ⟨leaked', hi'⟩ := ih
      obtain ⟨act, hstep, hP⟩ := hstep
      exact hstep.inv hi' hf hl (hp hi' hstep hP) fun hex ph heq => hexact hex _ ph (heq ▸ hP)

end WeakSlot

end BStackRaii
