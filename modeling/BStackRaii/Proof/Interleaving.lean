import BStackRaii.Proof.Shared
import Mathlib.Algebra.BigOperators.Group.Multiset.Basic
import Mathlib.Logic.Relation
import Mathlib.Tactic.Abel
/-!
# Calls that interleave

The rule by which a shared structure is shown to linearize. A `Discipline` says what the file holds for each
state of the structure, and what a call may have left to do. The conditions `Sound` are about one atomic step
each; `Inv` then holds along every run.

A call takes effect with one of its steps, or it is a reader: then some state that it has seen satisfies what
its answer needs, and it takes effect there. What a call still does once it took effect is its tail. A reader is
lost when the root of the structure changes while it is in flight.
-/

namespace BStackRaii

open Linearize

variable {σ Op Res X G : Type}

/-- `Holds x g f`: the file holds the state `x`, and the calls in flight have the tokens `g` together.
`Rest x op c held tokens φ`: a call of `op` may have `c` left to do, and own `held` and `tokens`, when the
structure is in the state `x` and the call has seen a value that satisfies `φ`. `Tail x op c held tokens out`: it
took effect with the answer `out`, and may have `c` left to do. -/
structure Discipline (σ Op Res X G : Type) where
  Holds : X → G → File → Prop
  value : X → σ
  blocks : X → Multiset Range
  Drift : X → X → Prop
  Rest : X → Op → Script IoError World Res → Multiset Range → G → (σ → Prop) → Prop
  Astray : Op → Script IoError World Res → Prop
  Tail : X → Op → Script IoError World Res → Multiset Range → G → Except IoError Res → Prop :=
    fun _ _ _ _ _ _ => False

/-- What readers rely on. -/
structure Root (Op : Type) where
  word : File → Nat
  reader : Op → Prop

/-- The readers among the calls in flight, if the root is not the same in `w` and `w'`. -/
def Root.spoiled (root : Root Op) (k : Nat) (tasks : Multiset (Task Op Res)) (w w' : World) : Set Nat :=
  {id | root.word (w.files k) ≠ root.word (w'.files k) ∧ ∃ t ∈ tasks, t.id = id ∧ root.reader t.op}

namespace Discipline

section Conditions

variable [AddCommMonoid G] (D : Discipline σ Op Res X G) (k : Nat) (fixed : Multiset Range)
  (code : Nat → Op → Script IoError World Res) (O : Object σ Op (Except IoError Res)) (root : Root Op)

/-- What a step of one call leaves to the others, which have the tokens `g`. -/
structure After (g : G) (w w' : World) (x x' : X) (held held' : Multiset Range) (tokens' : G) : Prop where
  quiet : w'.Quiet
  holds : D.Holds x' (tokens' + g) (w'.files k)
  drift : D.Drift x x'
  flow : ∃ granted freed, Flow k w w' granted freed ∧ D.blocks x' + held' + freed = D.blocks x + held + granted

/-- What a step does for its own call, which has `c` left to do: it brings the call further, or it takes effect, as
the last one or with a tail behind it. -/
inductive Outcome (x x' : X) (op : Op) (c : Script IoError World Res) (held' : Multiset Range) (tokens' : G)
    (φ : σ → Prop) : Prop
  | further (φ' : σ → Prop) (hvalue : D.value x' = D.value x) (hrest : D.Rest x' op c held' tokens' φ')
      (hφ : φ' = φ ∨ φ' (D.value x')) : Outcome x x' op c held' tokens' φ
  | effect (out : Except IoError Res) (hdone : c = .done out) (hheld : held' = 0)
      (hallow : O.allows (D.value x) op out) (hnext : O.next (D.value x) op out = D.value x') :
      Outcome x x' op c held' tokens' φ
  | early (out : Except IoError Res) (htail : D.Tail x' op c held' tokens' out)
      (hallow : O.allows (D.value x) op out) (hnext : O.next (D.value x) op out = D.value x') :
      Outcome x x' op c held' tokens' φ

/-- The conditions, each about one step. -/
structure Sound : Prop where
  waste : ∀ {x g tokens f}, D.Holds x (tokens + g) f → D.Holds x g f
  frame : ∀ {x g f f'}, D.Holds x g f → (∀ r ∈ fixed + D.blocks x, r ∈ f.live → r ∈ f'.live ∧
    ∀ i, r.start ≤ i → i < r.stop → f'.bytes i = f.bytes i) → D.Holds x g f'
  start : ∀ x attempts op, ∃ φ, D.Rest x op (code attempts op) 0 0 φ ∧ φ (D.value x)
  drift : ∀ {x x' g g' f f' op c held tokens φ}, D.Holds x g f → D.Holds x' g' f' → D.Drift x x' →
    D.Rest x op c held tokens φ →
    (∃ φ', D.Rest x' op c held tokens φ' ∧ (φ' = φ ∨ φ' (D.value x'))) ∨
      (root.word f ≠ root.word f' ∧ root.reader op ∧ D.Astray op c ∧ held = 0)
  step : ∀ {β : Type} {w x g tokens op held φ} {c : Io β} {next : Except IoError β → Script IoError World Res},
    w.Quiet → D.Holds x (tokens + g) (w.files k) → fixed + (D.blocks x + held) ≤ ↑(w.files k).live →
    D.Rest x op (.step c next) held tokens φ →
    ∃ x' held' tokens', D.After k g w (c w).final x x' held held' tokens' ∧
      D.Outcome O x x' op (next (c w).out) held' tokens' φ
  finish : ∀ {x op out held tokens φ}, D.Rest x op (.done out) held tokens φ →
    held = 0 ∧ ∀ s, φ s → O.allows s op out ∧ O.next s op out = s
  wander : ∀ {β : Type} {w op} {c : Io β} {next : Except IoError β → Script IoError World Res},
    w.Quiet → D.Astray op (.step c next) →
    (c w).final.Quiet ∧ (c w).final.files k = w.files k ∧ D.Astray op (next (c w).out)
  tailDrift : ∀ {x x' g g' f f' op c held tokens out}, D.Holds x g f → D.Holds x' g' f' → D.Drift x x' →
    D.Tail x op c held tokens out → D.Tail x' op c held tokens out := by
      intros
      exact False.elim ‹_›
  tailStep : ∀ {β : Type} {w x g tokens op held out} {c : Io β} {next : Except IoError β → Script IoError World Res},
    w.Quiet → D.Holds x (tokens + g) (w.files k) → fixed + (D.blocks x + held) ≤ ↑(w.files k).live →
    D.Tail x op (.step c next) held tokens out →
    ∃ x' held' tokens', D.After k g w (c w).final x x' held held' tokens' ∧ D.value x' = D.value x ∧
      D.Tail x' op (next (c w).out) held' tokens' out := by
      intros
      exact False.elim ‹_›
  tailEnd : ∀ {x op out out' held tokens}, D.Tail x op (.done out') held tokens out → out' = out ∧ held = 0 := by
      intros
      exact False.elim ‹_›

end Conditions

/-! ### The primitive steps -/

section Primitive

variable [AddCommMonoid G] {D : Discipline σ Op Res X G} {k : Nat} {g tokens' : G} {w w' : World} {x x' : X}
  {held held' : Multiset Range} {r : Range}

theorem After.idle (hq : w'.Quiet) (hfiles : w'.files k = w.files k) (hholds : D.Holds x' (tokens' + g) (w.files k))
    (hdrift : D.Drift x x') (hblocks : D.blocks x' + held' = D.blocks x + held) :
    D.After k g w w' x x' held held' tokens' where
  quiet := hq
  holds := by
    rw [hfiles]
    exact hholds
  drift := hdrift
  flow := ⟨0, 0, .none (by rw [hfiles]), by rw [add_zero, add_zero, hblocks]⟩

theorem After.commit {ws : Batch} (hq : w.Quiet) (hholds : D.Holds x' (tokens' + g) (File.writeAll ws (w.files k)))
    (hdrift : D.Drift x x') (hblocks : D.blocks x' + held' = D.blocks x + held) :
    D.After k g w (World.storeAll k ws w) x x' held held' tokens' where
  quiet := by
    show (World.storeAll k ws w).faults = []
    rw [World.faults_storeAll]
    exact hq
  holds := by
    rw [World.files_storeAll]
    exact hholds
  drift := hdrift
  flow := ⟨0, 0, .none (by rw [World.files_storeAll, File.live_writeAll]), by rw [add_zero, add_zero, hblocks]⟩

theorem After.grant (hq : w.Quiet) (hr : (w.files k).Admits r)
    (hholds : D.Holds x' (tokens' + g) ((w.files k).allocAt r hr)) (hdrift : D.Drift x x')
    (hblocks : D.blocks x' + held' = D.blocks x + held + {r}) :
    D.After k g w (w.grant k r hr) x x' held held' tokens' where
  quiet := hq
  holds := by
    rw [World.files_grant_same]
    exact hholds
  drift := hdrift
  flow := ⟨{r}, 0, .grant r (by rw [World.files_grant_same, File.live_allocAt]), by rw [add_zero, hblocks]⟩

theorem After.release (hq : w.Quiet) (hr : r ∈ (w.files k).live)
    (hholds : D.Holds x' (tokens' + g) ((w.files k).free r)) (hdrift : D.Drift x x')
    (hblocks : D.blocks x' + held' + {r} = D.blocks x + held) :
    D.After k g w (w.release k r) x x' held held' tokens' where
  quiet := hq
  holds := by
    rw [World.files_release_same]
    exact hholds
  drift := hdrift
  flow := ⟨0, {r}, .free r hr (by rw [World.files_release_same, File.live_free]), by rw [add_zero, hblocks]⟩

end Primitive

/-! ### The invariant -/

/-- A call in flight, with what it owns. -/
structure Flight (Op Res G : Type) where
  task : Task Op Res
  held : Multiset Range
  tokens : G

/-- Where a call in flight stands when the effects so far are `l`. -/
inductive Going (D : Discipline σ Op Res X G) (O : Object σ Op (Except IoError Res)) (s₀ : σ) (x : X)
    (lost : Set Nat) (h : List (Event Op (Except IoError Res))) (l : List (Effect Op (Except IoError Res)))
    (t : Flight Op Res G) : Prop
  | pending (φ : σ → Prop) (hrest : D.Rest x t.task.op t.task.code t.held t.tokens φ)
      (hseen : Seen O s₀ h l t.task.id φ) (hnew : ∀ y ∈ l, y.id ≠ t.task.id) : Going D O s₀ x lost h l t
  | effected (out : Except IoError Res) (hdone : t.task.code = .done out) (hheld : t.held = 0)
      (hmem : ⟨t.task.id, t.task.op, out⟩ ∈ l) : Going D O s₀ x lost h l t
  | trailing (out : Except IoError Res) (htail : D.Tail x t.task.op t.task.code t.held t.tokens out)
      (hmem : ⟨t.task.id, t.task.op, out⟩ ∈ l) : Going D O s₀ x lost h l t
  | astray (hastray : D.Astray t.task.op t.task.code) (hheld : t.held = 0) (hlost : t.task.id ∈ lost)
      (hnew : ∀ y ∈ l, y.id ≠ t.task.id) : Going D O s₀ x lost h l t

/-- The invariant of a run. The calls in `lost` are readers that the root changed under. -/
structure Inv [AddCommMonoid G] (D : Discipline σ Op Res X G) (k : Nat) (fixed : Multiset Range)
    (O : Object σ Op (Except IoError Res)) (s₀ : σ) (s : Shared Op Res) (lost : Set Nat) (x : X)
    (ts : Multiset (Flight Op Res G)) (l : List (Effect Op (Except IoError Res))) : Prop where
  tasks : s.tasks = ts.map Flight.task
  quiet : s.world.Quiet
  holds : D.Holds x (ts.map Flight.tokens).sum (s.world.files k)
  granted : s.granted = D.blocks x + (ts.map Flight.held).sum + s.freed
  own : fixed + (D.blocks x + (ts.map Flight.held).sum) ≤ ↑(s.world.files k).live
  lin : Linearizes O s₀ lostᶜ s.events l
  value : after O s₀ l = D.value x
  ids : (ts.map fun t => t.task.id).Nodup
  called : ∀ t ∈ ts, .call t.task.id t.task.op ∈ s.events ∧ ∀ out, .ret t.task.id out ∉ s.events
  going : ∀ t ∈ ts, Going D O s₀ x lost s.events l t

section Steps

variable {D : Discipline σ Op Res X G} {k : Nat} {fixed : Multiset Range}
  {code : Nat → Op → Script IoError World Res} {O : Object σ Op (Except IoError Res)} {root : Root Op} {s₀ : σ}
  {s : Shared Op Res} {lost lost' : Set Nat} {x x' : X} {t : Flight Op Res G} {ts : Multiset (Flight Op Res G)}
  {h : List (Event Op (Except IoError Res))} {l l₁ l₂ : List (Effect Op (Except IoError Res))}
  {e : Effect Op (Except IoError Res)} {id : Nat} {op : Op} {out : Except IoError Res}

namespace Going

theorem mono (hg : Going D O s₀ x lost h l t) (hsub : lost ⊆ lost') : Going D O s₀ x lost' h l t := by
  cases hg with
  | pending φ hrest hseen hnew => exact .pending φ hrest hseen hnew
  | effected out hdone hheld hmem => exact .effected out hdone hheld hmem
  | trailing out htail hmem => exact .trailing out htail hmem
  | astray hastray hheld hlost hnew => exact .astray hastray hheld (hsub hlost) hnew

theorem call (hg : Going D O s₀ x lost h l t) (hfresh : ∀ e ∈ h, e.id ≠ id)
    (hcall : .call t.task.id t.task.op ∈ h) : Going D O s₀ x lost (h ++ [.call id op]) l t := by
  cases hg with
  | pending φ hrest hseen hnew => exact .pending φ hrest (hseen.call hfresh hcall) hnew
  | effected out hdone hheld hmem => exact .effected out hdone hheld hmem
  | trailing out htail hmem => exact .trailing out htail hmem
  | astray hastray hheld hlost hnew => exact .astray hastray hheld hlost hnew

theorem ret (hg : Going D O s₀ x lost h l t) : Going D O s₀ x lost (h ++ [.ret id out]) l t := by
  cases hg with
  | pending φ hrest hseen hnew => exact .pending φ hrest hseen.ret hnew
  | effected out hdone hheld hmem => exact .effected out hdone hheld hmem
  | trailing out htail hmem => exact .trailing out htail hmem
  | astray hastray hheld hlost hnew => exact .astray hastray hheld hlost hnew

/-- Another operation takes effect now. -/
theorem snoc (hg : Going D O s₀ x lost h l t) (hno : ∀ out, .ret e.id out ∉ h) (hne : e.id ≠ t.task.id) :
    Going D O s₀ x lost h (l ++ [e]) t := by
  have hold : (∀ y ∈ l, y.id ≠ t.task.id) → ∀ y ∈ l ++ [e], y.id ≠ t.task.id := by
    intro hnew y hy
    cases List.mem_append.mp hy with
    | inl hy => exact hnew y hy
    | inr hy => exact List.mem_singleton.mp hy ▸ hne
  cases hg with
  | pending φ hrest hseen hnew => exact .pending φ hrest (hseen.snoc hno) (hold hnew)
  | effected out hdone hheld hmem => exact .effected out hdone hheld (List.mem_append_left _ hmem)
  | trailing out htail hmem => exact .trailing out htail (List.mem_append_left _ hmem)
  | astray hastray hheld hlost hnew => exact .astray hastray hheld hlost (hold hnew)

/-- A reader takes effect at an earlier point. -/
theorem insert (hg : Going D O s₀ x lost h (l₁ ++ l₂) t) (hno : ∀ out, .ret e.id out ∉ h)
    (hread : O.next (after O s₀ l₁) e.op e.res = after O s₀ l₁) (hne : e.id ≠ t.task.id) :
    Going D O s₀ x lost h (l₁ ++ e :: l₂) t := by
  have hold : (∀ y ∈ l₁ ++ l₂, y.id ≠ t.task.id) → ∀ y ∈ l₁ ++ e :: l₂, y.id ≠ t.task.id := by
    intro hnew y hy
    cases List.mem_cons.mp (List.perm_middle.mem_iff.mp hy) with
    | inl hy => exact hy ▸ hne
    | inr hy => exact hnew y hy
  cases hg with
  | pending φ hrest hseen hnew => exact .pending φ hrest (hseen.insert hno hread) (hold hnew)
  | effected out hdone hheld hmem =>
      exact .effected out hdone hheld (List.perm_middle.mem_iff.mpr (List.mem_cons_of_mem e hmem))
  | trailing out htail hmem =>
      exact .trailing out htail (List.perm_middle.mem_iff.mpr (List.mem_cons_of_mem e hmem))
  | astray hastray hheld hlost hnew => exact .astray hastray hheld hlost (hold hnew)

end Going

theorem exists_flight {task : Task Op Res} {rest : Multiset (Task Op Res)}
    (htasks : ts.map Flight.task = task ::ₘ rest) :
    ∃ t ts', ts = t ::ₘ ts' ∧ t.task = task ∧ ts'.map Flight.task = rest := by
  classical
  obtain ⟨t, ht, heq, hrest⟩ := (Multiset.map_eq_cons _ _ _ _).mpr htasks
  exact ⟨t, ts.erase t, (Multiset.cons_erase ht).symm, heq, hrest⟩

/-- What the calls own once one of them made a step. -/
theorem After.blocks [AddCommMonoid G] {g : G} {w w' : World} {held held' : Multiset Range} {tokens' : G}
    (ha : D.After k g w w' x x' held held' tokens') {others granted freed : Multiset Range}
    (hgranted : granted = D.blocks x + (held + others) + freed)
    (hown : fixed + (D.blocks x + (held + others)) ≤ ↑(w.files k).live) :
    granted + newBlocks k w w' = D.blocks x' + (held' + others) + (freed + newBlocks k w' w) ∧
      fixed + (D.blocks x' + (held' + others)) ≤ ↑(w'.files k).live := by
  obtain ⟨gs, fs, hflow, heq⟩ := ha.flow
  constructor
  · rw [hflow.granted, hflow.freed, hgranted]
    calc D.blocks x + (held + others) + freed + gs = D.blocks x + held + gs + others + freed := by abel
      _ = D.blocks x' + held' + fs + others + freed := by rw [heq]
      _ = D.blocks x' + (held' + others) + (freed + fs) := by abel
  · apply hflow.own_le hown
    calc fixed + (D.blocks x' + (held' + others)) + fs = fixed + (D.blocks x' + held' + fs + others) := by abel
      _ = fixed + (D.blocks x + held + gs + others) := by rw [heq]
      _ = fixed + (D.blocks x + (held + others)) + gs := by abel

namespace Inv

variable [AddCommMonoid G]

theorem mono (hi : Inv D k fixed O s₀ s lost x ts l) (hsub : lost ⊆ lost') :
    Inv D k fixed O s₀ s lost' x ts l :=
  { hi with
    lin := hi.lin.mono (Set.compl_subset_compl.mpr hsub)
    going := fun t ht => (hi.going t ht).mono hsub }

theorem owned_eq (hi : Inv D k fixed O s₀ s lost x ts l) :
    s.owned fixed = fixed + (D.blocks x + (ts.map Flight.held).sum) := by
  rw [Shared.owned, hi.granted, add_tsub_cancel_right]

theorem call (hs : D.Sound k fixed code O root) (hi : Inv D k fixed O s₀ s lost x ts l) {attempts : Nat}
    (hid : ∀ e ∈ s.events, e.id ≠ id) :
    ∃ ts', Inv D k fixed O s₀ { s with
      tasks := ⟨id, op, code attempts op⟩ ::ₘ s.tasks
      events := s.events ++ [.call id op] } lost x ts' l := by
  obtain ⟨φ, hrest, hφ⟩ := hs.start x attempts op
  have hnew : ∀ y ∈ l, y.id ≠ id := fun y hy => hid _ (hi.lin.called y hy)
  have hold : ∀ t ∈ ts, t.task.id ≠ id := fun t ht => hid _ (hi.called t ht).1
  refine ⟨⟨⟨id, op, code attempts op⟩, 0, 0⟩ ::ₘ ts, ?_, hi.quiet, ?_, ?_, ?_, hi.lin.call hid op, hi.value, ?_, ?_, ?_⟩
  · rw [Multiset.map_cons, hi.tasks]
  · rw [Multiset.map_cons, Multiset.sum_cons, zero_add]
    exact hi.holds
  · rw [Multiset.map_cons, Multiset.sum_cons, zero_add]
    exact hi.granted
  · rw [Multiset.map_cons, Multiset.sum_cons, zero_add]
    exact hi.own
  · rw [Multiset.map_cons, Multiset.nodup_cons]
    refine ⟨fun hmem => ?_, hi.ids⟩
    obtain ⟨t, ht, heq⟩ := Multiset.mem_map.mp hmem
    exact hold t ht heq
  · intro t ht
    rcases Multiset.mem_cons.mp ht with rfl | ht
    · refine ⟨List.mem_append_right _ (List.mem_singleton_self _), fun out hret => ?_⟩
      cases List.mem_append.mp hret with
      | inl hret => exact hid _ hret rfl
      | inr hret => cases List.mem_singleton.mp hret
    · obtain ⟨hcall, hno⟩ := hi.called t ht
      refine ⟨List.mem_append_left _ hcall, fun out hret => ?_⟩
      cases List.mem_append.mp hret with
      | inl hret => exact hno out hret
      | inr hret => cases List.mem_singleton.mp hret
  · intro t ht
    rcases Multiset.mem_cons.mp ht with rfl | ht
    · exact .pending φ hrest (seen_now _ _ (hi.value ▸ hφ)) hnew
    · exact (hi.going t ht).call hid (hi.called t ht).1

theorem elsewhere (hs : D.Sound k fixed code O root) (hi : Inv D k fixed O s₀ s lost x ts l) {w : World}
    (h : LeavesBe k (s.owned fixed) s.world w) : Inv D k fixed O s₀ { s with world := w } lost x ts l := by
  have hown := hi.own
  rw [← hi.owned_eq] at hown
  have hkept := h.own_le hown
  rw [hi.owned_eq] at hkept
  refine { hi with quiet := h.quiet, holds := hs.frame hi.holds fun r hr hlive => ?_, own := hkept }
  have hmem : r ∈ s.owned fixed := by
    rw [hi.owned_eq, ← add_assoc]
    exact Multiset.mem_add.mpr (.inl hr)
  exact ⟨h.keeps r hmem hlive, h.bytes r hmem hlive⟩

theorem rest_called (hi : Inv D k fixed O s₀ s lost x (t ::ₘ ts) l) {t' : Flight Op Res G} (ht : t' ∈ ts) :
    t'.task.id ≠ t.task.id := by
  have hids := hi.ids
  rw [Multiset.map_cons, Multiset.nodup_cons] at hids
  intro heq
  exact hids.1 (Multiset.mem_map.mpr ⟨t', ht, heq⟩)

/-- A call that took effect, or that no longer counts, returns. -/
theorem returned (hs : D.Sound k fixed code O root) (hi : Inv D k fixed O s₀ s lost x (t ::ₘ ts) l)
    (hheld : t.held = 0) (hx : t.task.id ∈ lostᶜ → ∃ y ∈ l, y.id = t.task.id)
    (hres : ∀ y ∈ l, y.id = t.task.id → y.res = out) :
    Inv D k fixed O s₀ { s with tasks := ts.map Flight.task, events := s.events ++ [.ret t.task.id out] } lost x
      ts l := by
  have hholds := hi.holds
  have hgranted := hi.granted
  have hown := hi.own
  have hids := hi.ids
  rw [Multiset.map_cons, Multiset.sum_cons] at hholds hgranted hown
  rw [hheld, zero_add] at hgranted hown
  rw [Multiset.map_cons, Multiset.nodup_cons] at hids
  refine ⟨rfl, hi.quiet, hs.waste hholds, hgranted, hown, ?_, hi.value, hids.2, ?_, ?_⟩
  · exact hi.lin.ret (hi.called t (Multiset.mem_cons_self t ts)).2 hx hres
  · intro t' ht
    obtain ⟨hcall, hno⟩ := hi.called t' (Multiset.mem_cons_of_mem ht)
    refine ⟨List.mem_append_left _ hcall, fun out' hret => ?_⟩
    cases List.mem_append.mp hret with
    | inl hret => exact hno out' hret
    | inr hret =>
        injection List.mem_singleton.mp hret with heq
        exact hi.rest_called ht heq
  · intro t' ht
    exact (hi.going t' (Multiset.mem_cons_of_mem ht)).ret

/-- A reader takes effect where it saw what it needs. -/
theorem inserted (hi : Inv D k fixed O s₀ s lost x (t ::ₘ ts) (l₁ ++ l₂)) {φ : σ → Prop}
    (hφ : φ (after O s₀ l₁)) (hlate : ∀ y ∈ l₂, ¬ Precedes s.events y.id t.task.id)
    (hnew : ∀ y ∈ l₁ ++ l₂, y.id ≠ t.task.id)
    (hread : ∀ s, φ s → O.allows s t.task.op out ∧ O.next s t.task.op out = s)
    (hdone : t.task.code = .done out) (hheld : t.held = 0) :
    Inv D k fixed O s₀ s lost x (t ::ₘ ts) (l₁ ++ ⟨t.task.id, t.task.op, out⟩ :: l₂) := by
  obtain ⟨hallow, hnext⟩ := hread _ hφ
  obtain ⟨hcall, hno⟩ := hi.called t (Multiset.mem_cons_self t ts)
  have hstays : after O s₀ (l₁ ++ ⟨t.task.id, t.task.op, out⟩ :: l₂) = after O s₀ (l₁ ++ l₂) := by
    rw [after_append, after_append]
    show after O (O.next (after O s₀ l₁) t.task.op out) l₂ = _
    rw [hnext]
  refine { hi with lin := ?_, value := hstays.trans hi.value, going := ?_ }
  · apply hi.lin.insert hcall hno hnew hallow _ hlate
    rw [hnext]
    exact (legal_append.mp hi.lin.legal).2
  · intro t' ht
    rcases Multiset.mem_cons.mp ht with rfl | ht
    · exact .effected out hdone hheld (by simp)
    · exact (hi.going t' (Multiset.mem_cons_of_mem ht)).insert hno hnext (hi.rest_called ht).symm

theorem returns (hs : D.Sound k fixed code O root) (hi : Inv D k fixed O s₀ s lost x ts l)
    {rest : Multiset (Task Op Res)} (htasks : s.tasks = ⟨id, op, .done out⟩ ::ₘ rest) :
    ∃ ts' l', Inv D k fixed O s₀ { s with tasks := rest, events := s.events ++ [.ret id out] } lost x ts' l' := by
  obtain ⟨t, ts, rfl, htask, rfl⟩ := exists_flight (hi.tasks.symm.trans htasks)
  obtain ⟨⟨id', op', code'⟩, held, tokens⟩ := t
  cases htask
  have hmine : ∀ y ∈ l, y.id = id → (⟨id, op, out⟩ : Effect Op (Except IoError Res)) ∈ l → y.res = out := by
    intro y hy heq hmem
    have hsame := List.inj_on_of_nodup_map hi.lin.once hy hmem heq
    rw [hsame]
  cases hi.going _ (Multiset.mem_cons_self _ ts) with
  | pending φ hrest hseen hnew =>
      obtain ⟨hheld, hread⟩ := hs.finish hrest
      obtain ⟨l₁, l₂, rfl, hφ, hlate⟩ := hseen
      have hin := hi.inserted hφ hlate hnew hread rfl hheld
      refine ⟨ts, _, hin.returned hs hheld (fun _ => ⟨⟨id, op, out⟩, by simp, rfl⟩) fun y hy heq => ?_⟩
      rcases List.mem_cons.mp (List.perm_middle.mem_iff.mp hy) with rfl | hy
      · rfl
      · exact absurd heq (hnew y hy)
  | effected out' hdone hheld hmem =>
      cases hdone
      exact ⟨ts, l, hi.returned hs hheld (fun _ => ⟨_, hmem, rfl⟩) fun y hy heq => hmine y hy heq hmem⟩
  | trailing out' htail hmem =>
      obtain ⟨rfl, hheld⟩ := hs.tailEnd htail
      exact ⟨ts, l, hi.returned hs hheld (fun _ => ⟨_, hmem, rfl⟩) fun y hy heq => hmine y hy heq hmem⟩
  | astray hastray hheld hlost hnew =>
      exact ⟨ts, l, hi.returned hs hheld (fun hno => absurd hlost hno) fun y hy heq => absurd heq (hnew y hy)⟩

/-- The calls that are still there when the step of one is done. -/
theorem calls (hi : Inv D k fixed O s₀ s lost x (t ::ₘ ts) l) (t' : Flight Op Res G)
    (hid : t'.task.id = t.task.id) (hop : t'.task.op = t.task.op) :
    ((t' ::ₘ ts).map fun t => t.task.id).Nodup ∧
      ∀ t ∈ t' ::ₘ ts, .call t.task.id t.task.op ∈ s.events ∧ ∀ out, .ret t.task.id out ∉ s.events := by
  have hids := hi.ids
  rw [Multiset.map_cons] at hids ⊢
  rw [hid]
  refine ⟨hids, fun t'' ht => ?_⟩
  rcases Multiset.mem_cons.mp ht with rfl | ht
  · rw [hid, hop]
    exact hi.called t (Multiset.mem_cons_self t ts)
  · exact hi.called t'' (Multiset.mem_cons_of_mem ht)

end Inv

/-- A call in flight, when another step has changed the structure. -/
theorem Going.drifts [AddCommMonoid G] (hs : D.Sound k fixed code O root) {w w' : World} {g g' : G}
    {tasks : Multiset (Task Op Res)} (hg : Going D O s₀ x lost h l t) (hholds : D.Holds x g (w.files k))
    (hholds' : D.Holds x' g' (w'.files k)) (hdrift : D.Drift x x') (hvalue : after O s₀ l = D.value x')
    (hmem : t.task ∈ tasks) : Going D O s₀ x' (lost ∪ root.spoiled k tasks w w') h l t := by
  cases hg with
  | pending φ hrest hseen hnew =>
      obtain ⟨φ', hrest', hφ⟩ | ⟨hroot, hreader, hastray, hheld⟩ := hs.drift hholds hholds' hdrift hrest
      · cases hφ with
        | inl hsame => exact .pending φ' hrest' (hsame ▸ hseen) hnew
        | inr hnow => exact .pending φ' hrest' (seen_now _ _ (hvalue ▸ hnow)) hnew
      · exact .astray hastray hheld (.inr ⟨hroot, t.task, hmem, rfl, hreader⟩) hnew
  | effected out hdone hheld hmem => exact .effected out hdone hheld hmem
  | trailing out htail hmem => exact .trailing out (hs.tailDrift hholds hholds' hdrift htail) hmem
  | astray hastray hheld hlost hnew => exact .astray hastray hheld (.inl hlost) hnew

namespace Inv

variable [AddCommMonoid G]

section Atomic

variable {β : Type} {c : Io β} {next : Except IoError β → Script IoError World Res} {held : Multiset Range}
  {tokens : G}

/-- The state once the call `id` has made the step `c`. -/
def stepped (k : Nat) (s : Shared Op Res) (id : Nat) (op : Op) (c : Io β)
    (next : Except IoError β → Script IoError World Res) (rest : Multiset (Task Op Res)) : Shared Op Res :=
  { s with
    world := (c s.world).final
    tasks := ⟨id, op, next (c s.world).out⟩ ::ₘ rest
    granted := s.granted + newBlocks k s.world (c s.world).final
    freed := s.freed + newBlocks k (c s.world).final s.world }

/-- A reader that is lost goes on. -/
theorem wanders (hs : D.Sound k fixed code O root)
    (hi : Inv D k fixed O s₀ s lost x (⟨⟨id, op, .step c next⟩, held, tokens⟩ ::ₘ ts) l)
    (hastray : D.Astray op (.step c next)) (hheld : held = 0) (hlost : id ∈ lost) (hnew : ∀ y ∈ l, y.id ≠ id) :
    Inv D k fixed O s₀ (stepped k s id op c next (ts.map Flight.task)) lost x
      (⟨⟨id, op, next (c s.world).out⟩, held, tokens⟩ ::ₘ ts) l := by
  obtain ⟨hquiet, hfiles, hastray'⟩ := hs.wander hi.quiet hastray
  obtain ⟨hids, hcalled⟩ := hi.calls ⟨⟨id, op, next (c s.world).out⟩, held, tokens⟩ rfl rfl
  have hnone : newBlocks k s.world (c s.world).final = 0 ∧ newBlocks k (c s.world).final s.world = 0 := by
    rw [newBlocks, newBlocks, hfiles, tsub_self]
    exact ⟨rfl, rfl⟩
  have hholds := hi.holds
  have hgranted := hi.granted
  have hown := hi.own
  rw [Multiset.map_cons, Multiset.sum_cons] at hholds hgranted hown
  refine ⟨?_, hquiet, ?_, ?_, ?_, hi.lin, hi.value, hids, hcalled, ?_⟩
  · rw [Multiset.map_cons]
    rfl
  · show D.Holds x _ ((c s.world).final.files k)
    rw [Multiset.map_cons, Multiset.sum_cons, hfiles]
    exact hholds
  · show s.granted + _ = _ + (s.freed + _)
    rw [Multiset.map_cons, Multiset.sum_cons, hnone.1, hnone.2, add_zero, add_zero]
    exact hgranted
  · show _ ≤ (↑((c s.world).final.files k).live : Multiset Range)
    rw [Multiset.map_cons, Multiset.sum_cons, hfiles]
    exact hown
  · intro t ht
    rcases Multiset.mem_cons.mp ht with rfl | ht
    · exact .astray hastray' hheld hlost hnew
    · exact hi.going t (Multiset.mem_cons_of_mem ht)

/-- What a call owns beside the structure. -/
theorem mine (hi : Inv D k fixed O s₀ s lost x (t ::ₘ ts) l) :
    fixed + (D.blocks x + t.held) ≤ ↑(s.world.files k).live := by
  have hown := hi.own
  rw [Multiset.map_cons, Multiset.sum_cons] at hown
  exact le_trans (add_le_add_right (add_le_add_right (Multiset.le_add_right t.held _) _) _) hown

/-- The invariant once a call made its step, when the order of the effects is `l₂` then. -/
theorem moved (hs : D.Sound k fixed code O root)
    (hi : Inv D k fixed O s₀ s lost x (⟨⟨id, op, .step c next⟩, held, tokens⟩ ::ₘ ts) l)
    {held' : Multiset Range} {tokens' : G}
    (ha : D.After k (ts.map Flight.tokens).sum s.world (c s.world).final x x' held held' tokens')
    (hlin : Linearizes O s₀ lostᶜ s.events l₂) (hvalue : after O s₀ l₂ = D.value x')
    (hmine : Going D O s₀ x' lost s.events l₂ ⟨⟨id, op, next (c s.world).out⟩, held', tokens'⟩)
    (hothers : ∀ t ∈ ts, Going D O s₀ x lost s.events l₂ t) :
    Inv D k fixed O s₀ (stepped k s id op c next (ts.map Flight.task))
      (lost ∪ root.spoiled k s.tasks s.world (c s.world).final) x'
      (⟨⟨id, op, next (c s.world).out⟩, held', tokens'⟩ ::ₘ ts) l₂ := by
  have hholds := hi.holds
  have hgranted := hi.granted
  have hown := hi.own
  rw [Multiset.map_cons, Multiset.sum_cons] at hholds hgranted hown
  obtain ⟨hids, hcalled⟩ := hi.calls ⟨⟨id, op, next (c s.world).out⟩, held', tokens'⟩ rfl rfl
  obtain ⟨hgranted', hown'⟩ := ha.blocks hgranted hown
  have hmem : ∀ t ∈ ts, t.task ∈ s.tasks := by
    intro t ht
    rw [hi.tasks]
    exact Multiset.mem_map_of_mem _ (Multiset.mem_cons_of_mem ht)
  have hsub : lost ⊆ lost ∪ root.spoiled k s.tasks s.world (c s.world).final := Set.subset_union_left
  refine ⟨?_, ha.quiet, ?_, ?_, ?_, hlin.mono (Set.compl_subset_compl.mpr hsub), hvalue, hids, hcalled, ?_⟩
  · rw [Multiset.map_cons]
    rfl
  · rw [Multiset.map_cons, Multiset.sum_cons]
    exact ha.holds
  · rw [Multiset.map_cons, Multiset.sum_cons]
    exact hgranted'
  · rw [Multiset.map_cons, Multiset.sum_cons]
    exact hown'
  · intro t ht
    rcases Multiset.mem_cons.mp ht with rfl | ht
    · exact hmine.mono hsub
    · exact (hothers t ht).drifts hs hholds ha.holds ha.drift hvalue (hmem t ht)

theorem steps (hs : D.Sound k fixed code O root)
    (hi : Inv D k fixed O s₀ s lost x (⟨⟨id, op, .step c next⟩, held, tokens⟩ ::ₘ ts) l) {φ : σ → Prop}
    (hrest : D.Rest x op (.step c next) held tokens φ) (hseen : Seen O s₀ s.events l id φ)
    (hnew : ∀ y ∈ l, y.id ≠ id) :
    ∃ x' ts' l', Inv D k fixed O s₀ (stepped k s id op c next (ts.map Flight.task))
      (lost ∪ root.spoiled k s.tasks s.world (c s.world).final) x' ts' l' := by
  have hholds := hi.holds
  rw [Multiset.map_cons, Multiset.sum_cons] at hholds
  obtain ⟨x', held', tokens', ha, hout⟩ := hs.step hi.quiet hholds hi.mine hrest
  obtain ⟨hcall, hno⟩ := hi.called _ (Multiset.mem_cons_self _ ts)
  have hothers : ∀ t ∈ ts, Going D O s₀ x lost s.events l t := fun t ht => hi.going t (Multiset.mem_cons_of_mem ht)
  have hlater : ∀ out, ∀ t ∈ ts, Going D O s₀ x lost s.events (l ++ [⟨id, op, out⟩]) t :=
    fun out t ht => (hothers t ht).snoc hno (hi.rest_called ht).symm
  have hvalues : ∀ out, O.next (D.value x) op out = D.value x' → after O s₀ (l ++ [⟨id, op, out⟩]) = D.value x' := by
    intro out hnext
    rw [after_snoc, hi.value]
    exact hnext
  have hlast : ∀ out, ⟨id, op, out⟩ ∈ l ++ [(⟨id, op, out⟩ : Effect Op (Except IoError Res))] :=
    fun out => List.mem_append_right _ (List.mem_singleton_self _)
  cases hout with
  | further φ' hvalue hrest' hφ =>
      have hsame : after O s₀ l = D.value x' := hi.value.trans hvalue.symm
      refine ⟨x', _, l, hi.moved hs ha hi.lin hsame ?_ hothers⟩
      cases hφ with
      | inl hkept => exact .pending φ' hrest' (hkept ▸ hseen) hnew
      | inr hnow => exact .pending φ' hrest' (seen_now _ _ (hsame ▸ hnow)) hnew
  | effect out hdone hheld hallow hnext =>
      exact ⟨x', _, _, hi.moved hs ha (hi.lin.snoc hcall hno hnew (hi.value ▸ hallow)) (hvalues out hnext)
        (.effected out hdone hheld (hlast out)) (hlater out)⟩
  | early out htail hallow hnext =>
      exact ⟨x', _, _, hi.moved hs ha (hi.lin.snoc hcall hno hnew (hi.value ▸ hallow)) (hvalues out hnext)
        (.trailing out htail (hlast out)) (hlater out)⟩

/-- A call that took effect goes on with its tail. -/
theorem trails (hs : D.Sound k fixed code O root)
    (hi : Inv D k fixed O s₀ s lost x (⟨⟨id, op, .step c next⟩, held, tokens⟩ ::ₘ ts) l) {out : Except IoError Res}
    (htail : D.Tail x op (.step c next) held tokens out) (hmem : ⟨id, op, out⟩ ∈ l) :
    ∃ x' ts' l', Inv D k fixed O s₀ (stepped k s id op c next (ts.map Flight.task))
      (lost ∪ root.spoiled k s.tasks s.world (c s.world).final) x' ts' l' := by
  have hholds := hi.holds
  rw [Multiset.map_cons, Multiset.sum_cons] at hholds
  obtain ⟨x', held', tokens', ha, hvalue, htail'⟩ := hs.tailStep hi.quiet hholds hi.mine htail
  exact ⟨x', _, l, hi.moved hs ha hi.lin (hi.value.trans hvalue.symm) (.trailing out htail' hmem)
    fun t ht => hi.going t (Multiset.mem_cons_of_mem ht)⟩

theorem atomic (hs : D.Sound k fixed code O root) (hi : Inv D k fixed O s₀ s lost x ts l)
    {rest : Multiset (Task Op Res)} (htasks : s.tasks = ⟨id, op, .step c next⟩ ::ₘ rest) :
    ∃ x' ts' l', Inv D k fixed O s₀ (stepped k s id op c next rest)
      (lost ∪ root.spoiled k s.tasks s.world (c s.world).final) x' ts' l' := by
  obtain ⟨t, ts, rfl, htask, rfl⟩ := exists_flight (hi.tasks.symm.trans htasks)
  obtain ⟨task, held, tokens⟩ := t
  cases htask
  cases hi.going _ (Multiset.mem_cons_self _ ts) with
  | pending φ hrest hseen hnew => exact hi.steps hs hrest hseen hnew
  | effected out hdone hheld hmem => cases hdone
  | trailing out htail hmem => exact hi.trails hs htail hmem
  | astray hastray hheld hlost hnew =>
      exact ⟨x, _, l, (hi.wanders hs hastray hheld hlost hnew).mono Set.subset_union_left⟩

end Atomic

end Inv

end Steps

end Discipline

/-! ### Runs -/

/-- A run from `s₀` to `s`. The calls in `lost` are the readers that the root changed under. -/
inductive Shared.Run (k : Nat) (fixed : Multiset Range) (code : Nat → Op → Script IoError World Res)
    (root : Root Op) (s₀ : Shared Op Res) : Shared Op Res → Set Nat → Prop
  | start : Run k fixed code root s₀ s₀ ∅
  | step {s s' : Shared Op Res} {lost : Set Nat} (h : Run k fixed code root s₀ s lost)
      (hstep : Shared.Step k fixed code s s') :
      Run k fixed code root s₀ s' (lost ∪ root.spoiled k s.tasks s.world s'.world)

/-- Where nobody relies on the root, no call is lost. -/
theorem Shared.Run.of_steps {k : Nat} {fixed : Multiset Range} {code : Nat → Op → Script IoError World Res}
    {root : Root Op} {s₀ s : Shared Op Res} (hno : ∀ op, ¬ root.reader op)
    (h : Relation.ReflTransGen (Shared.Step k fixed code) s₀ s) : Shared.Run k fixed code root s₀ s ∅ := by
  induction h with
  | refl => exact .start
  | tail _ hstep ih =>
      have hnone : ∀ (tasks : Multiset (Task Op Res)) (w w' : World), root.spoiled k tasks w w' = ∅ := by
        intro tasks w w'
        apply Set.eq_empty_of_forall_notMem
        rintro id ⟨-, t, -, -, hreader⟩
        exact hno _ hreader
      have hrun := ih.step hstep
      rw [hnone, Set.union_empty] at hrun
      exact hrun

theorem Shared.Run.exists_of_steps {k : Nat} {fixed : Multiset Range} {code : Nat → Op → Script IoError World Res}
    {s₀ s : Shared Op Res} (root : Root Op) (h : Relation.ReflTransGen (Shared.Step k fixed code) s₀ s) :
    ∃ lost, Shared.Run k fixed code root s₀ s lost := by
  induction h with
  | refl => exact ⟨_, .start⟩
  | tail _ hstep ih =>
      obtain ⟨lost, hrun⟩ := ih
      exact ⟨_, hrun.step hstep⟩

/-- Nobody has called the structure yet. Its blocks are `fixed` and those that are granted. -/
structure Shared.Fresh (s : Shared Op Res) : Prop where
  quiet : s.world.Quiet
  tasks : s.tasks = 0
  events : s.events = []
  freed : s.freed = 0

namespace Discipline

variable [AddCommMonoid G] {D : Discipline σ Op Res X G} {k : Nat} {fixed : Multiset Range}
  {code : Nat → Op → Script IoError World Res} {O : Object σ Op (Except IoError Res)} {root : Root Op}
  {s s' s₀ : Shared Op Res} {lost : Set Nat} {x x₀ : X} {ts : Multiset (Flight Op Res G)}
  {l : List (Effect Op (Except IoError Res))}

theorem Inv.fresh (hfresh : s.Fresh) (hholds : D.Holds x 0 (s.world.files k)) (hgranted : s.granted = D.blocks x)
    (hown : fixed + D.blocks x ≤ ↑(s.world.files k).live) : Inv D k fixed O (D.value x) s ∅ x 0 [] where
  tasks := hfresh.tasks
  quiet := hfresh.quiet
  holds := hholds
  granted := by rw [hgranted, hfresh.freed, Multiset.map_zero, Multiset.sum_zero, add_zero, add_zero]
  own := by
    rw [Multiset.map_zero, Multiset.sum_zero, add_zero]
    exact hown
  lin := by
    rw [hfresh.events]
    exact linearizes_nil _ _
  value := rfl
  ids := Multiset.nodup_zero
  called := fun _ ht => absurd ht (Multiset.notMem_zero _)
  going := fun _ ht => absurd ht (Multiset.notMem_zero _)

/-- The step lemma. -/
theorem Inv.step (hs : D.Sound k fixed code O root) (hi : Inv D k fixed O (D.value x₀) s lost x ts l)
    (hstep : Shared.Step k fixed code s s') :
    ∃ x' ts' l', Inv D k fixed O (D.value x₀) s' (lost ∪ root.spoiled k s.tasks s.world s'.world) x' ts' l' := by
  have hsub : ∀ w, lost ⊆ lost ∪ root.spoiled k s.tasks s.world w := fun w => Set.subset_union_left
  cases hstep with
  | call id attempts op hid =>
      obtain ⟨ts', hcall⟩ := hi.call hs hid
      exact ⟨x, ts', l, hcall.mono (hsub _)⟩
  | atomic id op c next rest htasks => exact hi.atomic hs htasks
  | returns id op out rest htasks =>
      obtain ⟨ts', l', hret⟩ := hi.returns hs htasks
      exact ⟨x, ts', l', hret.mono (hsub _)⟩
  | elsewhere w h => exact ⟨x, ts, l, (hi.elsewhere hs h).mono (hsub _)⟩

/-- The run lemma. -/
theorem Sound.run (hs : D.Sound k fixed code O root) (hfresh : s₀.Fresh)
    (hholds : D.Holds x₀ 0 (s₀.world.files k)) (hgranted : s₀.granted = D.blocks x₀)
    (hown : fixed + D.blocks x₀ ≤ ↑(s₀.world.files k).live)
    (hrun : Shared.Run k fixed code root s₀ s lost) :
    ∃ x ts l, Inv D k fixed O (D.value x₀) s lost x ts l := by
  induction hrun with
  | start => exact ⟨x₀, 0, [], Inv.fresh hfresh hholds hgranted hown⟩
  | step _ hstep ih =>
      obtain ⟨x, ts, l, hi⟩ := ih
      exact hi.step hs hstep

end Discipline

end BStackRaii
