import BStackRaii.Proof.WeakSlot.Phases
/-!
# Swaps of slots

A swap moves a count from the new handle into the slot, and one from the slot to whoever displaced it: it
changes no ledger at all. `set_weak_field` swaps under the lock, where no reader of the field can be, and a
generated `replace` swaps a slot that is not firm.
-/

namespace BStackRaii

namespace WeakSlot

variable {a : Allocator} {os : List BStackRc} {slots : List Slot} {firm : Slot → Prop} {exact : Prop} {s : State}
  {leaked : BStackRc → Ledger} {o : BStackRc}
  {guard : Guard} {rest : Multiset Access} {ph ph' : Phase} {σ : Slot} {data : List UInt8}

/-- What bytes that name an object hold of it. -/
def hit (σ : Slot) (bytes : List UInt8) (o : BStackRc) : Ledger :=
  if (σ.names bytes).map Prod.fst = some o.ctrl then ⟨0, 0, 1, 0, 0⟩ else 0

def Slot.bytes (σ : Slot) (f : File) : List UInt8 := f.bytes.read σ.range.start σ.range.len

theorem Slot.target_write_self (f : File) (hlen : data.length = σ.range.len) :
    σ.target (f.write σ.range.start data) = σ.names data := by
  rw [Slot.target, File.bytes_write, Mem.read_write_eq _ _ hlen]

theorem Slot.target_write_apart {τ : Slot} (f : File) (hlen : data.length = σ.range.len)
    (h : τ.range.stop ≤ σ.range.start ∨ σ.range.stop ≤ τ.range.start) :
    τ.target (f.write σ.range.start data) = τ.target f := by
  refine Slot.target_congr fun i hge hlt => ?_
  rw [File.bytes_write]
  simp only [Range.stop] at h hlt
  rcases h with h | h
  · exact Mem.write_of_lt (by omega)
  · exact Mem.write_of_ge (by omega)

/-- A swap takes one slot from the object it named and gives it to the object it names now. -/
theorem slotsOf_write {s' : State} (hl : Layout os slots) (hσ : σ ∈ slots) (hlen : data.length = σ.range.len)
    (hworld : s'.world = s.world.store a.stack σ.range.start data) (o : BStackRc) :
    s'.slotsOf a slots o + (hit σ (σ.bytes (s.world.files a.stack)) o).weak =
      s.slotsOf a slots o + (hit σ data o).weak := by
  obtain ⟨l₁, l₂, rfl⟩ := List.append_of_mem hσ
  obtain ⟨-, hpair, hcross⟩ := List.pairwise_append.mp hl.apart
  have hfirst : ∀ τ ∈ l₁, τ.target (s'.world.files a.stack) = τ.target (s.world.files a.stack) := fun τ hτ => by
    rw [hworld, World.files_store_same]
    exact Slot.target_write_apart _ hlen (hcross τ hτ σ List.mem_cons_self)
  have hlast : ∀ τ ∈ l₂, τ.target (s'.world.files a.stack) = τ.target (s.world.files a.stack) := fun τ hτ => by
    rw [hworld, World.files_store_same]
    exact Slot.target_write_apart _ hlen ((List.pairwise_cons.mp hpair).1 τ hτ).symm
  have hself : σ.target (s'.world.files a.stack) = σ.names data := by
    rw [hworld, World.files_store_same]
    exact Slot.target_write_self _ hlen
  have hsame : ∀ l : List Slot, (∀ τ ∈ l, τ.target (s'.world.files a.stack) = τ.target (s.world.files a.stack)) →
      l.filter (fun τ => (τ.target (s'.world.files a.stack)).map Prod.fst = some o.ctrl) =
        l.filter fun τ => (τ.target (s.world.files a.stack)).map Prod.fst = some o.ctrl :=
    fun l h => List.filter_congr fun τ hτ => by rw [h τ hτ]
  have hold : σ.target (s.world.files a.stack) = σ.names (σ.bytes (s.world.files a.stack)) := rfl
  simp only [State.slotsOf, List.filter_append, List.length_append, List.filter_cons, hsame l₁ hfirst,
    hsame l₂ hlast, hself, hold, hit, decide_eq_true_eq]
  split <;> split <;> simp only [List.length_cons, Ledger.weak_zero] <;> omega

theorem State.total_swapped (hl : Layout os slots) (hcalls : s.calls = ⟨ph, guard⟩ ::ₘ rest) (hσ : σ ∈ slots)
    (hlen : data.length = σ.range.len)
    (hshare : ph'.share o + hit σ data o = ph.share o + hit σ (σ.bytes (s.world.files a.stack)) o) :
    (s.moved ph ph' guard rest (s.world.store a.stack σ.range.start data)).total a slots leaked o =
      s.total a slots leaked o := by
  have hslots := slotsOf_write (a := a) (s := s) hl hσ hlen
    (show (s.moved ph ph' guard rest (s.world.store a.stack σ.range.start data)).world = _ from rfl) o
  have hzero : ∀ bytes, hit σ bytes o = ⟨0, 0, (hit σ bytes o).weak, 0, 0⟩ := by
    intro bytes
    rw [hit]
    split <;> rfl
  rw [hzero data, hzero (σ.bytes _)] at hshare
  have hparts := And.intro (congrArg Ledger.strong hshare) (And.intro (congrArg Ledger.last hshare)
    (And.intro (congrArg Ledger.weak hshare)
      (And.intro (congrArg Ledger.closing hshare) (congrArg Ledger.moved hshare))))
  simp only [Ledger.strong_add, Ledger.last_add, Ledger.weak_add, Ledger.closing_add, Ledger.moved_add] at hparts
  rw [State.total_cons hcalls, State.total, State.others]
  simp only [State.handles, State.moved, State.inFlight_cons] at hslots ⊢
  ext
  all_goals simp only [Ledger.strong_add, Ledger.last_add, Ledger.weak_add, Ledger.closing_add, Ledger.moved_add]
  all_goals omega

theorem Inv.agrees_store (hi : Inv a os slots firm exact s leaked) (hf : Family os) (hl : Layout os slots)
    (hσ : σ ∈ slots) (hlen : data.length = σ.range.len) (ho : o ∈ os) :
    Agrees a o (s.total a slots leaked o) s.freed (s.world.store a.stack σ.range.start data) := by
  have hclear := hl.clear σ hσ o ho
  have hA : Agrees a o (s.total a slots leaked o) (⟨s.world, ∅, ∅, 0, s.freed, 0⟩ : Sharing).freed
    (⟨s.world, ∅, ∅, 0, s.freed, 0⟩ : Sharing).world := hi.agrees o ho
  have halone : BStackRaii.LeavesAlone a.stack o ⟨s.world, ∅, ∅, 0, s.freed, 0⟩
      (s.world.store a.stack σ.range.start data) := by
    refine ⟨hi.quiet, fun r _ _ h => (World.live_store _).symm ▸ h, fun _ i hge hlt => ?_⟩
    rw [World.files_store_same, File.bytes_write]
    simp only [Range.stop] at hclear hlt
    rcases hclear with hclear | hclear
    · exact Mem.write_of_ge (by omega)
    · exact Mem.write_of_lt (by omega)
  exact Agrees.elsewhere (hf.wf o ho) hA halone

/-- The swap of a slot: its bytes change, and a count goes each way. -/
theorem Inv.swapped (hi : Inv a os slots firm exact s leaked) (hf : Family os) (hl : Layout os slots)
    (hcalls : s.calls = ⟨ph, guard⟩ ::ₘ rest) (hguard : guard ≠ .waiting) (hσ : σ ∈ slots)
    (hlen : data.length = σ.range.len)
    (hnext : ph.next a s.world = (ph', s.world.store a.stack σ.range.start data))
    (hshare : ∀ o ∈ os, ph'.share o + hit σ data o = ph.share o + hit σ (σ.bytes (s.world.files a.stack)) o)
    (hnamed : ∀ ctrl size, σ.names data = some (ctrl, size) → Names os ctrl size)
    (hsound : ph'.Sound a os slots firm) (hlocked : ¬ ph'.Locked) (hpin : ph'.pinning = none)
    (hfirm : firm σ → ∀ t ∈ rest, ∀ ctrl size, t.phase.pinning ≠ some (σ, ctrl, size))
    (hsettles : ph.displaces ph' + ph.owes = ph.releases ph' + ph.loses ph' + ph'.owes)
    (hclean : exact → ph.loses ph' = 0 ∧ ¬ ph'.Undoing) :
    Inv a os slots firm exact (s.act a ph guard rest s.world) leaked := by
  rw [State.act_eq hnext]
  have hnone : newlyFreed s.world (s.world.store a.stack σ.range.start data) = [] := newlyFreed_of_eq rfl
  have htarget : ∀ τ ∈ slots, τ ≠ σ → τ.target ((s.world.store a.stack σ.range.start data).files a.stack) =
      τ.target (s.world.files a.stack) := by
    intro τ hτ hne
    rw [World.files_store_same]
    exact Slot.target_write_apart _ hlen (hl.apart_of_ne hτ hσ hne)
  have htotal : ∀ o ∈ os,
    (s.moved ph ph' guard rest (s.world.store a.stack σ.range.start data)).total a slots leaked o =
      s.total a slots leaked o := fun o ho => State.total_swapped hl hcalls hσ hlen (hshare o ho)
  have hmem : ∀ t ∈ rest, t ∈ s.calls := fun t ht => hcalls ▸ Multiset.mem_cons_of_mem ht
  have htended := hi.tended hcalls hguard hsound (fun hlock => absurd hlock hlocked) hsettles hclean
    (s.world.store a.stack σ.range.start data)
  refine ⟨hi.quiet, ?_, hi.strong, hi.weak, htended.sound, htended.guarded, htended.waiting, htended.holders, ?_, ?_,
    ?_, htended.settled, fun hexact => ⟨(hi.exact hexact).1, htended.spotless hexact⟩⟩
  · intro o ho
    rw [htotal o ho, State.moved, hnone, List.append_nil]
    exact hi.agrees_store hf hl hσ hlen ho
  · intro τ hτ
    rw [State.moved, World.files_store_same, File.len_write]
    exact hi.inside τ hτ
  · intro τ hτ ctrl size htau
    by_cases hne : τ = σ
    · subst hne
      rw [State.moved, World.files_store_same, Slot.target_write_self _ hlen] at htau
      exact hnamed ctrl size htau
    · rw [State.moved, htarget τ hτ hne] at htau
      exact hi.named τ hτ ctrl size htau
  · intro t ht τ ctrl size htpin
    rcases Multiset.mem_cons.mp ht with rfl | ht
    · rw [hpin] at htpin
      cases htpin
    · obtain ⟨htau, hwatch⟩ := hi.readers t (hmem t ht) τ ctrl size htpin
      refine ⟨fun hτfirm => ?_, fun o ho hctrl => ?_⟩
      · have hne : τ ≠ σ := fun heq => hfirm (heq ▸ hτfirm) t ht ctrl size (heq ▸ htpin)
        rw [State.moved, htarget τ ((hi.sound t (hmem t ht)).slot_mem htpin) hne]
        exact htau hτfirm
      · rw [htotal o ho]
        exact hwatch o ho hctrl

theorem swap_run {w : World} {k off : Nat} (hq : w.Quiet) (h : off + data.length ≤ (w.files k).len) :
    swap k off data w = ⟨.ok ((w.files k).bytes.read off data.length), w.store k off data, [w]⟩ := by
  simp only [swap, Prog.durable_apply, if_neg hq.not_faulty, if_pos h, hq.tick_eq]

theorem hit_of_names {bytes : List UInt8} {ctrl : Range} {size : Nat} (h : σ.names bytes = some (ctrl, size))
    (o : BStackRc) : hit σ bytes o = if ctrl = o.ctrl then ⟨0, 0, 1, 0, 0⟩ else 0 := by
  simp only [hit, h, Option.map_some, Option.some.injEq]

theorem hit_of_none {bytes : List UInt8} (h : σ.names bytes = none) (o : BStackRc) : hit σ bytes o = 0 := by
  simp only [hit, h, Option.map_none, reduceCtorEq, if_false]

/-- While one call has the lock, no other call is under it. -/
theorem Inv.alone (hi : Inv a os slots firm exact s leaked) (hcalls : s.calls = ⟨ph, .holding⟩ ::ₘ rest) {t : Access}
    (ht : t ∈ rest) : t.guard ≠ .holding := by
  intro hholding
  have hcount := hi.holders
  have hpos : 0 < rest.countP fun t => t.guard = .holding := Multiset.countP_pos.mpr ⟨t, ht, hholding⟩
  rw [hcalls, Multiset.countP_cons, if_pos rfl] at hcount
  split at hcount <;> omega

theorem Inv.set (hi : Inv a os slots firm exact s leaked) (hf : Family os) (hl : Layout os slots) {off size : Nat}
    {new : BStackWeak} (hcalls : s.calls = ⟨.set off size new, guard⟩ ::ₘ rest) (hguard : guard ≠ .waiting) :
    Inv a os slots firm exact (s.act a (.set off size new) guard rest s.world) leaked := by
  have hmem : (⟨.set off size new, guard⟩ : Access) ∈ s.calls := hcalls ▸ Multiset.mem_cons_self _ _
  obtain ⟨hσ, o, ho, rfl, hsize⟩ := hi.sound _ hmem
  have hwf := hf.wf o ho
  have hroom := hwf.addressable
  have hpos := hwf.placed
  have hctrl : (⟨o.ctrl.start, CONTROL_SIZE⟩ : Range) = o.ctrl := by rw [← hwf.size]
  have hword : leNat (leBytes 8 o.ctrl.start) = o.ctrl.start := Refcount.leNat_leBytes_word (by omega)
  have hnew : (Slot.field off size).names (leBytes 8 o.ctrl.start) = some (o.ctrl, size) := by
    rw [Slot.names, hword, if_neg (by omega), hctrl]
  have hin := hi.inside _ hσ
  have hrun : swap a.stack off (leBytes 8 o.ctrl.start) s.world =
      ⟨.ok ((s.world.files a.stack).bytes.read off 8), s.world.store a.stack off (leBytes 8 o.ctrl.start),
        [s.world]⟩ := by
    rw [swap_run hi.quiet, length_leBytes]
    rw [length_leBytes]
    exact hin
  -- the readers of this slot are under the lock, and the lock is taken
  have hreaders : ∀ t ∈ rest, ∀ ctrl n, t.phase.pinning ≠ some (.field off size, ctrl, n) := by
    intro t ht ctrl n hpin
    have htmem : t ∈ s.calls := hcalls ▸ Multiset.mem_cons_of_mem ht
    have hholding : guard = .holding := by
      have hfree := hi.guarded _ hmem trivial
      cases guard
      · exact absurd rfl hfree
      · exact absurd rfl hguard
      · rfl
    subst hholding
    have hlocked : t.phase.Locked ∧ ¬ t.phase.Entry := by
      revert hpin
      cases t.phase <;> intro hpin <;> cases hpin
      · exact ⟨trivial, id⟩
      · exact ⟨trivial, id⟩
    have hfree := hi.guarded t htmem hlocked.1
    have hwaits : t.guard ≠ .waiting := fun h => hlocked.2 (hi.waiting t htmem h)
    have halone := hi.alone hcalls ht
    cases hg : t.guard
    · exact hfree hg
    · exact hwaits hg
    · exact halone hg
  have hbytes : (Slot.field off size).bytes (s.world.files a.stack) = (s.world.files a.stack).bytes.read off 8 := rfl
  by_cases hnull : leNat ((s.world.files a.stack).bytes.read off 8) = 0
  · have hold : (Slot.field off size).names ((Slot.field off size).bytes (s.world.files a.stack)) = none := by
      rw [hbytes, Slot.names, if_pos hnull]
    have hnext : (Phase.set off size ⟨o.ctrl⟩).next a s.world =
        (.done (.ok .nothing), s.world.store a.stack off (leBytes 8 o.ctrl.start)) := by
      simp only [Phase.next, hrun, if_pos hnull]
    refine hi.swapped hf hl hcalls hguard hσ (length_leBytes 8 o.ctrl.start) hnext ?_ ?_ trivial id rfl
      (fun _ => hreaders) rfl fun _ => ⟨rfl, id⟩
    · intro x _
      rw [hit_of_names hnew, hit_of_none hold, Phase.share_none rfl, Phase.share_some rfl, zero_add, add_zero]
    · intro ctrl n hnames
      rw [hnew] at hnames
      cases hnames
      exact ⟨o, ho, rfl, hsize⟩
  · have hold : (Slot.field off size).names ((Slot.field off size).bytes (s.world.files a.stack)) =
        some (⟨leNat ((s.world.files a.stack).bytes.read off 8), CONTROL_SIZE⟩, size) := by
      rw [hbytes, Slot.names, if_neg hnull]
    obtain ⟨old, hin', hctrl', -⟩ := hi.named _ hσ _ _ hold
    have hnext : (Phase.set off size ⟨o.ctrl⟩).next a s.world =
        (.payWeak ⟨leNat ((s.world.files a.stack).bytes.read off 8), CONTROL_SIZE⟩ .setter,
          s.world.store a.stack off (leBytes 8 o.ctrl.start)) := by
      simp only [Phase.next, hrun, if_neg hnull]
    refine hi.swapped hf hl hcalls hguard hσ (length_leBytes 8 o.ctrl.start) hnext ?_ ?_
      ⟨⟨old, hin', hctrl'⟩, .inr rfl⟩ id rfl (fun _ => hreaders) ?_ fun _ => ⟨rfl, id⟩
    · intro x _
      rw [hit_of_names hnew, hit_of_names hold, Phase.share_some rfl, Phase.share_some rfl]
      exact add_comm _ _
    · intro ctrl n hnames
      rw [hnew] at hnames
      cases hnames
      exact ⟨o, ho, rfl, hsize⟩
    · simp [Phase.displaces, Phase.owes, Phase.releases, Phase.loses]

theorem names_weak {e : EnumType} (start : Nat) {disc : Nat} {h : BStackWeak} (hf : Family os) (htag : e.tag.length = 8)
    (hfits : (Value.weak disc h).Fits os e) : ∃ o ∈ os, ∃ size, h = ⟨o.ctrl⟩ ∧ o.data.len = size ∧
      (Slot.variant e start).names (e.image (.weak disc h)) = some (o.ctrl, size) := by
  obtain ⟨hdisc, size, hvariant, o, ho, rfl, hsize⟩ := hfits
  have hwf := hf.wf o ho
  have hroom := hwf.addressable
  have hdisc' : e.discOf (e.image (.weak disc ⟨o.ctrl⟩)) = disc := EnumType.discOf_image htag hdisc
  have hword : leNat (leBytes 8 o.ctrl.start) = o.ctrl.start := Refcount.leNat_leBytes_word (by omega)
  have hctrl : e.ctrlOf (e.image (.weak disc ⟨o.ctrl⟩)) = o.ctrl := by
    rw [EnumType.ctrlOf, EnumType.payloadOf_image htag, Value.payload, List.take_left' (length_leBytes ..),
      hword, ← hwf.size]
  refine ⟨o, ho, size, rfl, hsize, ?_⟩
  simp only [Slot.names, hdisc', hvariant, hctrl]

theorem names_other {e : EnumType} {start disc : Nat} {payload : List UInt8} (htag : e.tag.length = 8)
    (hfits : (Value.other disc payload).Fits os e) :
    (Slot.variant e start).names (e.image (.other disc payload)) = none := by
  have hdisc : e.discOf (e.image (.other disc payload)) = disc := EnumType.discOf_image htag hfits.1
  simp only [Slot.names, hdisc, hfits.2.1]

theorem Inv.replace (hi : Inv a os slots firm exact s leaked) (hf : Family os) (hl : Layout os slots) {e : EnumType}
    {start : Nat} {new : Value} (hcalls : s.calls = ⟨.replace e start new, guard⟩ ::ₘ rest)
    (hguard : guard ≠ .waiting) :
    Inv a os slots firm exact (s.act a (.replace e start new) guard rest s.world) leaked := by
  have hmem : (⟨.replace e start new, guard⟩ : Access) ∈ s.calls := hcalls ▸ Multiset.mem_cons_self _ _
  obtain ⟨hσ, hloose, hfits⟩ := hi.sound _ hmem
  obtain ⟨htag, hroom⟩ := hl.enums e start hσ
  have hlen : (e.image new).length = e.size := EnumType.length_image htag (new.length_payload hroom hfits)
  have hin := hi.inside _ hσ
  have hrun : swap a.stack start (e.image new) s.world = ⟨.ok ((s.world.files a.stack).bytes.read start e.size),
      s.world.store a.stack start (e.image new), [s.world]⟩ := by
    rw [swap_run hi.quiet, hlen]
    rw [hlen]
    exact hin
  -- the new record names what the call held
  have hnew : ∀ o, hit (.variant e start) (e.image new) o = (Phase.replace e start new).share o := by
    intro x
    cases new with
    | weak disc h =>
        obtain ⟨o, -, size, rfl, -, hnames⟩ := names_weak start hf htag hfits
        rw [hit_of_names hnames, Phase.share_some rfl]
    | other disc payload => rw [hit_of_none (names_other htag hfits), Phase.share_none rfl]
  have hnamed : ∀ ctrl size, (Slot.variant e start).names (e.image new) = some (ctrl, size) → Names os ctrl size := by
    intro ctrl size hnames
    cases new with
    | weak disc h =>
        obtain ⟨o, ho, n, -, hsize, hnames'⟩ := names_weak start hf htag hfits
        rw [hnames'] at hnames
        cases hnames
        exact ⟨o, ho, rfl, hsize⟩
    | other disc payload =>
        rw [names_other htag hfits] at hnames
        cases hnames
  have hfirm : firm (.variant e start) →
    ∀ t ∈ rest, ∀ ctrl size, t.phase.pinning ≠ some (.variant e start, ctrl, size) :=
    fun h => absurd h hloose
  have hbytes : (Slot.variant e start).bytes (s.world.files a.stack) =
    (s.world.files a.stack).bytes.read start e.size :=
    rfl
  rcases hvariant : e.variants (e.discOf ((s.world.files a.stack).bytes.read start e.size)) with _ | size | _
  · have hold : (Slot.variant e start).names ((Slot.variant e start).bytes (s.world.files a.stack)) = none := by
      simp only [hbytes, Slot.names, hvariant]
    have hnext : (Phase.replace e start new).next a s.world =
        (.done (.ok (.lost invalidDiscriminant)), s.world.store a.stack start (e.image new)) := by
      simp only [Phase.next, hrun, EnumType.reconstruct, hvariant]
    refine hi.swapped hf hl hcalls hguard hσ hlen hnext (fun o _ => ?_) hnamed trivial id rfl hfirm rfl
      fun _ => ⟨rfl, id⟩
    rw [hnew, hit_of_none hold, Phase.share_none rfl, zero_add, add_zero]
  · have hold : (Slot.variant e start).names ((Slot.variant e start).bytes (s.world.files a.stack)) =
        some (e.ctrlOf ((s.world.files a.stack).bytes.read start e.size), size) := by
      simp only [hbytes, Slot.names, hvariant]
    have hnext : (Phase.replace e start new).next a s.world =
        (.done (.ok (.value (.weak (e.discOf ((s.world.files a.stack).bytes.read start e.size))
          ⟨e.ctrlOf ((s.world.files a.stack).bytes.read start e.size)⟩))),
          s.world.store a.stack start (e.image new)) := by
      simp only [Phase.next, hrun, EnumType.reconstruct, hvariant]
    obtain ⟨old, hin', hctrl', -⟩ := hi.named _ hσ _ _ hold
    refine hi.swapped hf hl hcalls hguard hσ hlen hnext (fun o _ => ?_) hnamed ⟨old, hin', by rw [hctrl']⟩ id rfl hfirm
      rfl fun _ => ⟨rfl, id⟩
    rw [hnew, hit_of_names hold, Phase.share_some rfl]
    exact add_comm _ _
  · have hold : (Slot.variant e start).names ((Slot.variant e start).bytes (s.world.files a.stack)) = none := by
      simp only [hbytes, Slot.names, hvariant]
    have hnext : (Phase.replace e start new).next a s.world =
        (.done (.ok (.value (.other (e.discOf ((s.world.files a.stack).bytes.read start e.size))
          (e.payloadOf ((s.world.files a.stack).bytes.read start e.size))))),
          s.world.store a.stack start (e.image new)) := by
      simp only [Phase.next, hrun, EnumType.reconstruct, hvariant]
    refine hi.swapped hf hl hcalls hguard hσ hlen hnext (fun o _ => ?_) hnamed trivial id rfl hfirm rfl
      fun _ => ⟨rfl, id⟩
    rw [hnew, hit_of_none hold, Phase.share_none rfl, zero_add, add_zero]

end WeakSlot

end BStackRaii
