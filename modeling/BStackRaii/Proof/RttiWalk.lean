import BStackRaii.Logic.Keeps
import BStackRaii.Model.RttiWalk
/-!
# The interpreted walks leave null slots alone

Each arm of the two interpreters looks at the offset that it takes from a slot before it uses it. So nothing
that a walk collects, and nothing that it does, is at an offset that is null. The root has no slot: a teardown
frees the block it is given.
-/

namespace BStackRaii

namespace RttiWalk

open SlotWalk

section Common

variable {σ : Type} {P : σ → Prop}

theorem keeps_lift {α : Type} (r : RttiResult α) : Keeps P (lift r) := .mk r

theorem keeps_ordinal {reg : RttiRegistry} {tag : EightCC} : Keeps P (ordinal reg tag) := by
  rw [ordinal]
  split
  · exact .pure _
  · exact .throw _

end Common

/-! ### Teardown -/

def TdOp.NonNull : TdOp → Prop
  | block _ blockOff emit => emit = true → blockOff ≠ 0
  | shape _ _ => True

/-- Nothing that was collected is null. Wide pointers are looked at when they are released. -/
structure TdState.NonNull (st : TdState) : Prop where
  work : ∀ op ∈ st.work, op.NonNull
  toFree : ∀ range ∈ st.toFree, range.start ≠ 0
  strong : ∀ e ∈ st.strongReleases, e.2 ≠ 0
  weak : ∀ off ∈ st.weakReleases, off ≠ 0

namespace TdState

theorem nonNull_init {ord : RttiOrdinal} {blockOff : Nat} (h : blockOff ≠ 0) : (init ord blockOff).NonNull where
  work := by simp [init, TdOp.NonNull, h]
  toFree := by simp [init]
  strong := by simp [init]
  weak := by simp [init]

theorem keeps_push {op : TdOp} (h : op.NonNull) : Keeps NonNull (push op) :=
  .modify fun _ hst => { hst with work := List.forall_mem_cons.2 ⟨h, hst.work⟩ }

theorem keeps_charge {n : Nat} : Keeps NonNull (charge n) := by
  refine .get_bind fun st hst => ?_
  refine (Keeps.ite (fun _ => ?_) fun _ => .throw _ : Keeps NonNull (if n ≤ st.budget then _ else _)) st hst
  exact .modify fun _ h => ⟨h.work, h.toFree, h.strong, h.weak⟩

theorem keeps_free {range : Range} (h : range.start ≠ 0) : Keeps NonNull (free range) :=
  .modify fun _ hst => { hst with toFree := by simpa [or_imp, forall_and] using ⟨hst.toFree, h⟩ }

theorem keeps_releaseStrong {tag : EightCC} {off : Nat} : Keeps NonNull (releaseStrong tag off) :=
  .ite (fun h => .modify fun _ hst => { hst with
    strong := by simpa [or_imp, forall_and] using ⟨fun a b => hst.strong (a, b), h⟩ }) fun _ => .pure _

theorem keeps_releaseWeak {off : Nat} : Keeps NonNull (releaseWeak off) :=
  .ite (fun h => .modify fun _ hst => { hst with
    weak := by simpa [or_imp, forall_and] using ⟨hst.weak, h⟩ }) fun _ => .pure _

theorem keeps_releaseForeign {tag : EightCC} {kind : OwnershipKind} {fp : WidePtr} :
    Keeps NonNull (releaseForeign tag kind fp) := .modify fun _ hst => { hst with }

end TdState

section Teardown

open TdState

variable {reg : RttiRegistry} {data : List UInt8}

theorem keeps_pushFields {base : Nat} {fields : List RttiField} : Keeps TdState.NonNull (pushFields base fields) :=
  .forM fun _ _ => .bind (keeps_lift _) fun _ => keeps_push trivial

theorem keeps_body {base : Nat} (body : RttiBody) : Keeps TdState.NonNull (match body with
    | .struct fields => pushFields base fields
    | .enum e => do
        let (variant, payloadBase) ← lift (e.resolveVariant data base)
        pushFields payloadBase variant.fields) := by
  split
  · exact keeps_pushFields
  · exact .bind (keeps_lift _) fun _ => keeps_pushFields

theorem keeps_teardownBlock {ord : RttiOrdinal} {blockOff : Nat} {emit : Bool} (h : emit = true → blockOff ≠ 0) :
    Keeps TdState.NonNull (teardownBlock reg data ord blockOff emit) := by
  refine .bind (keeps_lift _) fun ty => ?_
  exact .ite (fun hemit => .bind (keeps_free (h hemit)) fun _ => keeps_body ty.body) fun _ => keeps_body ty.body

theorem keeps_pushTuple : ∀ {off : Nat} {items : List Shape}, Keeps TdState.NonNull (pushTuple reg off items)
  | _, [] => .pure _
  | _, _ :: _ => .bind (keeps_push trivial) fun _ => .bind (keeps_lift _) fun _ =>
      .bind (keeps_lift _) fun _ => keeps_pushTuple

theorem keeps_eachWord {base stride len : Nat} {f : Nat → Walking TdState Unit}
    (h : ∀ e, Keeps TdState.NonNull (f e)) : Keeps TdState.NonNull (eachWord data base stride len f) :=
  .forM fun _ _ => .bind (keeps_lift _) fun _ => .bind (keeps_lift _) fun e => h e

theorem keeps_teardownElements {elem : Shape} {base stride len : Nat} :
    Keeps TdState.NonNull (teardownElements reg data elem base stride len) := by
  unfold teardownElements
  split
  · refine .bind keeps_ordinal fun ord => keeps_eachWord fun e => .ite (fun h => ?_) fun _ => .pure _
    have hop : TdOp.NonNull (.block ord e true) := fun _ => h
    exact keeps_push hop
  · exact keeps_eachWord fun _ => keeps_releaseStrong
  · exact keeps_eachWord fun _ => keeps_releaseWeak
  · split
    · exact .forM fun _ _ => .bind (keeps_lift _) fun _ => .bind (keeps_lift _) fun _ => keeps_releaseForeign
    · exact .pure _

theorem keeps_teardownShape {shape : Shape} {offset : Nat} :
    Keeps TdState.NonNull (teardownShape reg data shape offset) := by
  cases shape with
  | pod => exact .pure _
  | ref => exact .pure _
  | classVar => exact .pure _
  | owned tag =>
      exact .bind (keeps_lift _) fun child =>
        .ite (fun h => .bind keeps_ordinal fun _ => keeps_push fun _ => h) fun _ => .pure _
  | embed tag => exact .bind keeps_ordinal fun _ => keeps_push nofun
  | strong tag => exact .bind (keeps_lift _) fun _ => keeps_releaseStrong
  | weak tag => exact .bind (keeps_lift _) fun _ => keeps_releaseWeak
  | foreign tag kind => exact .bind (keeps_lift _) fun _ => keeps_releaseForeign
  | option inner =>
      exact .bind (keeps_lift _) fun _ => .ite (fun _ => keeps_push trivial) fun _ => .pure _
  | array n inner =>
      exact .bind keeps_charge fun _ => .bind (keeps_lift _) fun _ => .forM fun _ _ =>
        .bind (keeps_lift _) fun _ => keeps_push trivial
  | tuple items => exact keeps_pushTuple
  | vec inner =>
      refine .bind (keeps_lift _) fun dataOff => .ite (fun h => ?_) fun _ => .pure _
      exact .bind (keeps_lift _) fun _ => .bind (keeps_lift _) fun _ => .bind (keeps_lift _) fun _ =>
        .bind (keeps_lift _) fun _ => .bind (keeps_lift _) fun _ => .bind keeps_charge fun _ =>
        .bind keeps_teardownElements fun _ => keeps_free h

theorem keeps_teardownOp {op : TdOp} (h : op.NonNull) : Keeps TdState.NonNull (teardownOp reg data op) := by
  cases op with
  | block ord blockOff emit => exact keeps_teardownBlock h
  | shape shape offset => exact keeps_teardownShape

theorem keeps_teardownLoop : ∀ turns : Nat, Keeps TdState.NonNull (teardownLoop reg data turns)
  | 0 => .throw _
  | turns + 1 => by
      refine .get_bind fun st hst => ?_
      match hwork : st.work with
      | [] => exact hst
      | op :: work =>
          have hop : op.NonNull := hst.work op (by simp [hwork])
          have hrest : TdState.NonNull { st with work } :=
            { hst with work := fun o ho => hst.work o (by simp [hwork, ho]) }
          exact (Keeps.bind keeps_charge fun _ => .bind (keeps_teardownOp hop) fun _ =>
            keeps_teardownLoop turns) _ hrest

end Teardown

/-! ### Commit -/

/-- Nothing that was done is at a null offset. -/
def Inert (touches : List Touch) : Prop := ∀ t ∈ touches, t.off ≠ 0

section Commit

variable {reg : RttiRegistry} {attached : Nat → Bool} {data : List UInt8}

theorem keeps_touch {t : Touch} (h : t.off ≠ 0) : Keeps Inert (touch t) :=
  .modify fun _ hst => by simpa [Inert, or_imp, forall_and] using ⟨hst, h⟩

theorem keeps_teardownForeign {tag : EightCC} {kind : OwnershipKind} {file off : Nat} :
    Keeps Inert (teardownForeign reg attached tag kind file off) := by
  refine .ite (fun _ => .pure _) fun hoff => .ite (fun _ => .pure _) fun _ => .ite (fun _ => ?_) fun _ => .pure _
  refine .bind keeps_ordinal fun _ => ?_
  cases kind with
  | ref => exact .pure _
  | owned => exact keeps_touch hoff
  | strong => exact keeps_touch hoff
  | weak => exact keeps_touch hoff

theorem keeps_teardownCommit {st : TdState} (h : st.NonNull) : Keeps Inert (teardownCommit reg attached st) := by
  refine .bind (.forM fun e he => ?_) fun _ => .bind (.forM fun off hoff => ?_) fun _ =>
    .bind (.forM fun _ _ => keeps_teardownForeign) fun _ => .forM fun range hrange => ?_
  · exact .bind keeps_ordinal fun _ => keeps_touch (h.strong e he)
  · exact keeps_touch (h.weak off hoff)
  · exact keeps_touch (h.toFree range (List.mem_reverse.1 hrange))

/-- An interpreted teardown does nothing at a null offset. -/
theorem teardown_inert {ord : RttiOrdinal} {blockOff : Nat} (h : blockOff ≠ 0) :
    Inert (teardown reg attached data ord blockOff).2 := by
  have hloop : (((teardownLoop reg data (WALK_BUDGET + 1)).run).run (TdState.init ord blockOff)).2.NonNull :=
    keeps_teardownLoop _ _ (TdState.nonNull_init h)
  rw [teardown]
  match hrun : (teardownLoop reg data (WALK_BUDGET + 1)).run (TdState.init ord blockOff) with
  | (.ok (), st) =>
      have hst : st.NonNull := (congrArg (fun r => r.2.NonNull) hrun).mp hloop
      exact keeps_teardownCommit hst [] nofun
  | (.error e, _) => exact nofun

end Commit

/-! ### Deep clone -/

structure CloneState.NonNull (st : CloneState) : Prop where
  touched : Inert st.touched
  bumps : ∀ b ∈ st.bumps, b.1.off ≠ 0

namespace CloneState

theorem keeps_touch {t : Touch} (h : t.off ≠ 0) : Keeps NonNull (touch t) :=
  .modify fun _ hst => { hst with
    touched := by simpa [Inert, or_imp, forall_and] using ⟨hst.touched, h⟩ }

theorem keeps_bump {t : Touch} {counter : Nat} (h : t.off ≠ 0) : Keeps NonNull (bump t counter) :=
  .modify fun _ hst => { hst with
    bumps := by simpa [or_imp, forall_and] using ⟨fun a b => hst.bumps (a, b), h⟩ }

theorem keeps_push {op : CloneOp} : Keeps NonNull (push op) := .modify fun _ hst => { hst with }

theorem keeps_patch {newSlot child : Nat} : Keeps NonNull (patch newSlot child) := .modify fun _ hst => { hst with }

theorem keeps_charge {n : Nat} : Keeps NonNull (charge n) := by
  refine .get_bind fun st hst => ?_
  refine (Keeps.ite (fun _ => ?_) fun _ => .throw _ : Keeps NonNull (if n ≤ st.budget then _ else _)) st hst
  exact .modify fun _ h => ⟨h.touched, h.bumps⟩

end CloneState

section Clone

open CloneState

variable {reg : RttiRegistry} {attached : Nat → Bool} {data : List UInt8}
  {allocate : List Range → Nat → Except IoError Nat}

theorem keeps_nonNull_bind {off : Nat} {α : Type} {f : Nat → Walking CloneState α}
    (h : off ≠ 0 → Keeps CloneState.NonNull (f off)) : Keeps CloneState.NonNull (nonNull off >>= f) := by
  by_cases hoff : off = 0
  · rw [nonNull, fromField, if_pos hoff]
    exact fun _ hst => hst
  · rw [nonNull, fromField, if_neg hoff]
    exact h hoff

theorem keeps_allocCopy {srcOff size : Nat} : Keeps CloneState.NonNull (allocCopy allocate srcOff size) := by
  refine keeps_nonNull_bind fun hsrc => .get_bind fun st hst => ?_
  refine Keeps.bind (keeps_lift _) (fun new => .bind (.modify fun _ h => ?_) fun _ =>
    .bind (CloneState.keeps_touch hsrc) fun _ => .pure _) st hst
  exact ⟨h.touched, h.bumps⟩

theorem keeps_pushCloneFields {srcBase newBase : Nat} {fields : List RttiField} :
    Keeps CloneState.NonNull (pushCloneFields srcBase newBase fields) :=
  .forM fun _ _ => .bind (keeps_lift _) fun _ => .bind (keeps_lift _) fun _ => CloneState.keeps_push

theorem keeps_pushBody {ty : RttiType} {srcBase newBase : Nat} :
    Keeps CloneState.NonNull (pushBody data ty srcBase newBase) := by
  unfold pushBody
  split
  · exact keeps_pushCloneFields
  · exact .bind (keeps_lift _) fun _ => .bind (keeps_lift _) fun _ => keeps_pushCloneFields

theorem keeps_strongBumpOff {tag : EightCC} {child : Nat} :
    Keeps CloneState.NonNull (strongBumpOff reg data tag child) := by
  refine .bind keeps_ordinal fun _ => .bind (keeps_lift _) fun ty => .ite (fun _ => ?_) fun _ => keeps_lift _
  exact .bind (keeps_lift _) fun ctrl => .ite (fun _ => .bind (.throw _) fun _ => keeps_lift _) fun _ => keeps_lift _

theorem keeps_cloneStrong {tag : EightCC} {child : Nat} :
    Keeps CloneState.NonNull (cloneStrong reg data tag child) :=
  .ite (fun h => .bind keeps_strongBumpOff fun _ => keeps_bump h) fun _ => .pure _

theorem keeps_cloneWeak {ctrl : Nat} : Keeps CloneState.NonNull (cloneWeak ctrl) :=
  .ite (fun h => .bind (keeps_lift _) fun _ => keeps_bump h) fun _ => .pure _

theorem keeps_cloneForeign {tag : EightCC} {kind : OwnershipKind} {srcOff newOff : Nat} :
    Keeps CloneState.NonNull (cloneForeign reg attached data tag kind srcOff newOff) := by
  refine .ite (fun _ => .pure _) fun _ => .bind (keeps_lift _) fun fp => .ite (fun _ => .pure _) fun hoff => ?_
  refine keeps_nonNull_bind fun _ => .ite (fun _ => .bind keeps_ordinal fun _ => ?_) fun _ => .throw _
  cases kind with
  | ref => exact .pure _
  | owned => exact CloneState.keeps_touch hoff
  | strong => exact CloneState.keeps_touch hoff
  | weak => exact CloneState.keeps_touch hoff

theorem keeps_pushCloneTuple : ∀ {src new : Nat} {items : List Shape},
    Keeps CloneState.NonNull (pushCloneTuple reg src new items)
  | _, _, [] => .pure _
  | _, _, _ :: _ => .bind CloneState.keeps_push fun _ => .bind (keeps_lift _) fun _ =>
      .bind (keeps_lift _) fun _ => .bind (keeps_lift _) fun _ => keeps_pushCloneTuple

theorem keeps_eachCloneWord {src stride len : Nat} {f : Nat → Nat → Walking CloneState Unit}
    (h : ∀ i e, Keeps CloneState.NonNull (f i e)) :
    Keeps CloneState.NonNull (eachCloneWord data src stride len f) :=
  .forM fun i _ => .bind (keeps_lift _) fun _ => .bind (keeps_lift _) fun e => h i e

theorem keeps_cloneElements {elem : Shape} {src new stride len : Nat} :
    Keeps CloneState.NonNull (cloneElements reg attached data elem src new stride len) := by
  unfold cloneElements
  split
  · exact .bind keeps_ordinal fun _ => keeps_eachCloneWord fun _ _ => .ite
      (fun _ => .bind (keeps_lift _) fun _ => .bind keeps_patch fun _ => CloneState.keeps_push) fun _ => .pure _
  · exact keeps_eachCloneWord fun _ _ => keeps_cloneStrong
  · exact keeps_eachCloneWord fun _ _ => keeps_cloneWeak
  · split
    · exact .forM fun _ _ => .bind (keeps_lift _) fun _ => .bind (keeps_lift _) fun _ => keeps_cloneForeign
    · exact .pure _

theorem keeps_cloneField {shape : Shape} {srcOff newOff : Nat} :
    Keeps CloneState.NonNull (cloneField reg attached data allocate shape srcOff newOff) := by
  cases shape with
  | pod => exact .pure _
  | classVar => exact .pure _
  | ref => exact .pure _
  | owned tag =>
      exact .bind (keeps_lift _) fun child => .ite (fun _ => .bind keeps_ordinal fun _ =>
        .bind keeps_patch fun _ => CloneState.keeps_push) fun _ => .pure _
  | embed tag => exact .bind keeps_ordinal fun _ => CloneState.keeps_push
  | strong tag => exact .bind (keeps_lift _) fun _ => keeps_cloneStrong
  | weak tag => exact .bind (keeps_lift _) fun _ => keeps_cloneWeak
  | foreign tag kind => exact keeps_cloneForeign
  | option inner => exact .bind (keeps_lift _) fun _ => .ite (fun _ => CloneState.keeps_push) fun _ => .pure _
  | array n inner =>
      exact .bind CloneState.keeps_charge fun _ => .bind (keeps_lift _) fun _ => .forM fun _ _ =>
        .bind (keeps_lift _) fun _ => .bind (keeps_lift _) fun _ => CloneState.keeps_push
  | tuple items => exact keeps_pushCloneTuple
  | vec inner =>
      refine .bind (keeps_lift _) fun srcData => .ite (fun _ => ?_) fun _ => .pure _
      exact .bind (keeps_lift _) fun _ => .bind keeps_allocCopy fun _ => .bind (keeps_lift _) fun _ =>
        .bind (keeps_lift _) fun _ => .bind (keeps_lift _) fun _ => .bind CloneState.keeps_charge fun _ =>
        .bind (keeps_lift _) fun _ => .bind (keeps_lift _) fun _ => keeps_cloneElements

theorem keeps_cloneOp {op : CloneOp} :
    Keeps CloneState.NonNull (cloneOp reg attached data allocate op) := by
  cases op with
  | block srcOff ord =>
      exact .bind (keeps_lift _) fun _ => .bind keeps_allocCopy fun _ =>
        .bind (.modify fun _ h => ⟨h.touched, h.bumps⟩) fun _ => keeps_pushBody
  | inline srcBase newBase ord => exact .bind (keeps_lift _) fun _ => keeps_pushBody
  | field shape srcOff newOff => exact keeps_cloneField

theorem keeps_cloneLoop : ∀ turns : Nat, Keeps CloneState.NonNull (cloneLoop reg attached data allocate turns)
  | 0 => .throw _
  | turns + 1 => by
      refine .get_bind fun st hst => ?_
      match st.work with
      | [] => exact hst
      | _ :: work =>
          have hrest : CloneState.NonNull { st with work } := ⟨hst.touched, hst.bumps⟩
          exact (Keeps.bind CloneState.keeps_charge fun _ => .bind keeps_cloneOp fun _ =>
            keeps_cloneLoop turns) _ hrest

theorem keeps_cloneBuild {rootSrc : Nat} :
    Keeps CloneState.NonNull (cloneBuild reg attached data allocate rootSrc) := by
  refine .bind (keeps_cloneLoop _) fun _ => .get_bind fun st hst => ?_
  refine Keeps.bind (.forM fun _ _ => .ite (fun _ => .pure _) fun _ => .throw _) (fun _ =>
    .bind (.forM fun b hb => CloneState.keeps_touch (hst.bumps b hb)) fun _ => ?_) st hst
  split
  · exact .pure _
  · exact .throw _

/-- An interpreted deep clone does nothing at a null offset. -/
theorem cloneValue_inert {ord : RttiOrdinal} {rootSrc : Nat} :
    Inert (cloneValue reg attached data allocate ord rootSrc).2 :=
  (keeps_cloneBuild (CloneState.init ord rootSrc) ⟨nofun, nofun⟩).touched

end Clone

end RttiWalk

end BStackRaii
