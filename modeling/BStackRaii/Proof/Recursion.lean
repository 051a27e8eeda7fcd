import BStackRaii.Logic.Rank
import BStackRaii.Model.Recursion
import BStackRaii.Proof.SlotWalk
/-!
# What bounds the native recursion

The guard bounds the calls that enter it. The other ones go from the type of a block to a type that it holds by
an embedded block, by a vector of owned blocks or by a collection's values, and for a deep clone by any owned
reference. So the recursion is bounded if these calls alone never lead from a type back to it, and a walk that meets a
cycle of blocks then returns an error.
-/

namespace BStackRaii

namespace SlotWalk

open Trail

/-! ### Calls without a guard -/

/-- The type that a call without a guard walks. -/
def Action.bareTarget : Action → Option EightCC
  | .element tag => some tag
  | .copy tag => some tag
  | _ => none

def Event.bareTarget : Event → Option EightCC
  | .touch t => t.action.bareTarget
  | .inplace tag _ => some tag

theorem Event.guards_or {b b' : BlockAt} {e : Event} (h : e.block b = some b') :
    e.guards = 1 ∨ e.guards = 0 ∧ e.bareTarget = some b'.tag := by
  cases e with
  | inplace tag pos =>
      obtain rfl := Option.some.inj h
      exact .inr ⟨rfl, rfl⟩
  | touch t =>
      obtain ⟨file, action, off⟩ := t
      cases action <;> simp_all [Event.block, Action.target, Event.guards, Action.guards, Event.bareTarget,
        Action.bareTarget] <;> simp [← h]

/-- The calls without a guard go to types of the list. -/
def Trail.Calls (tags : List EightCC) (a : Trail) : Prop := ∀ e ∈ a.events, ∀ tag ∈ e.bareTarget, tag ∈ tags

namespace Trail

variable {tags : List EightCC} {a b : Trail} {β : Type}

theorem calls_done : done.Calls tags := nofun

theorem calls_fail (e : IoError) : (fail e).Calls tags := nofun

theorem calls_event {e : Event} (h : ∀ tag ∈ e.bareTarget, tag ∈ tags) : (event e).Calls tags := by
  simpa [Calls, event] using h

theorem calls_touch {action : Action} {off : Nat} (h : ∀ tag ∈ action.bareTarget, tag ∈ tags) :
    (touch action off).Calls tags := calls_event h

theorem calls_andThen (ha : a.Calls tags) (hb : b.Calls tags) : (a.andThen b).Calls tags := by
  unfold andThen
  match a.out with
  | .ok () => exact fun e he => (List.mem_append.1 he).elim (ha e) (hb e)
  | .error _ => exact ha

theorem calls_each {f : β → Trail} : ∀ {xs : List β}, (∀ x ∈ xs, (f x).Calls tags) → (each f xs).Calls tags
  | [], _ => calls_done
  | x :: _, h => calls_andThen (h x List.mem_cons_self) (calls_each fun y hy => h y (List.mem_cons_of_mem x hy))

theorem calls_reading {r : Except IoError β} {k : β → Trail} (h : ∀ x, (k x).Calls tags) :
    (reading r k).Calls tags := by
  cases r with
  | ok x => exact h x
  | error e => exact calls_fail e

theorem calls_ite {c : Prop} [Decidable c] (ha : a.Calls tags) (hb : b.Calls tags) :
    (if c then a else b).Calls tags := by
  split
  · exact ha
  · exact hb

theorem Calls.mono {tags' : List EightCC} (h : a.Calls tags) (hsub : tags ⊆ tags') : a.Calls tags' :=
  fun e he tag htag => hsub (h e he tag htag)

end Trail

/-! ### The types that a part calls -/

section Calls

variable {s : Surroundings} {kind : OwnershipKind} {tag : EightCC} {tags : List EightCC} {off n start field : Nat}
  {image : List UInt8} {fp : WidePtr} {desc : Range}

/-- `tag`, if the reference is an owned one. -/
def ownedTag (kind : OwnershipKind) (tag : EightCC) : List EightCC := if kind = .owned then [tag] else []

def someTags (n : Nat) (tags : List EightCC) : List EightCC := if 0 < n then tags else []

namespace Part

/-- The types that the teardown of a field calls without a guard. -/
def fieldDropCalls : Part → List EightCC
  | embed tag => [tag]
  | embedArray n tag => someTags n [tag]
  | blockVec kind tag _ => ownedTag kind tag
  | vecArray n (some (kind, tag)) _ => someTags n (ownedTag kind tag)
  | _ => []

def variantDropCalls : Part → List EightCC
  | embed tag => [tag]
  | embedArray n tag => someTags n [tag]
  | blockVec kind tag _ => ownedTag kind tag
  | blockArrayVec kind tag _ => ownedTag kind tag
  | _ => []

/-- The types that the deep clone of a field calls. -/
def fieldCloneCalls : Part → List EightCC
  | block kind tag _ => ownedTag kind tag
  | embed tag => [tag]
  | foreign kind tag _ => ownedTag kind tag
  | blockArray n kind tag _ => someTags n (ownedTag kind tag)
  | embedArray n tag => someTags n [tag]
  | foreignArray n kind tag _ => someTags n (ownedTag kind tag)
  | foreignTuple kind items => items.flatMap fun item => item.2.elim [] (ownedTag kind)
  | blockVec kind tag _ => ownedTag kind tag
  | blockArrayVec kind tag _ => ownedTag kind tag
  | foreignVec kind tag _ => ownedTag kind tag
  | vecArray n (some (kind, tag)) _ => someTags n (ownedTag kind tag)
  | _ => []

/-- An enum has no arrays of vectors. -/
def variantCloneCalls : Part → List EightCC
  | vecArray _ _ _ => []
  | part => part.fieldCloneCalls

end Part

theorem mem_someTags {n k : Nat} (hk : k ∈ List.range n) : tags ⊆ someTags n tags := by
  rw [someTags, if_pos (Nat.zero_lt_of_lt (List.mem_range.1 hk))]
  exact List.Subset.refl tags

theorem calls_array {f : Nat → Trail} (h : ∀ k, (f k).Calls tags) :
    (each f (List.range n)).Calls (someTags n tags) :=
  calls_each fun k hk => (h k).mono (mem_someTags hk)

theorem calls_teardownRef : (teardownRef kind tag off).Calls tags := by
  cases kind <;> first | exact calls_touch nofun | exact calls_done

theorem calls_cloneRef : (cloneRef kind tag off).Calls (ownedTag kind tag) := by
  cases kind with
  | owned => exact calls_touch fun _ h => List.mem_singleton.2 (Option.some.inj h).symm
  | strong => exact calls_touch nofun
  | weak => exact calls_touch nofun
  | ref => exact calls_done

theorem calls_scalarFieldDrop : (scalarFieldDrop kind tag off).Calls tags := by
  cases kind <;> first | exact calls_ite (calls_touch nofun) calls_done | exact calls_done

theorem calls_cloneFieldStmt : (cloneFieldStmt kind tag off).Calls (ownedTag kind tag) := by
  have h : (cloneFieldStmt kind tag off) = if off ≠ 0 then cloneRef kind tag off else done := by
    cases kind <;> simp [cloneFieldStmt, cloneRef]
  rw [h]
  exact calls_ite calls_cloneRef calls_done

theorem calls_inFile {action : Action} {detached : Trail} (h : ∀ tag ∈ action.bareTarget, tag ∈ tags)
    (hdetached : detached.Calls tags) : (inFile s fp action detached).Calls tags :=
  calls_ite (calls_touch h) (calls_ite (calls_event h) hdetached)

theorem calls_foreignElemDrop : (foreignElemDrop s kind tag fp).Calls tags := by
  refine calls_ite ?_ calls_done
  cases kind <;> first | exact calls_inFile nofun calls_done | exact calls_done

theorem calls_foreignElemClone : (foreignElemClone s kind tag fp).Calls (ownedTag kind tag) := by
  cases kind with
  | owned =>
      refine calls_ite calls_done (calls_inFile ?_ (calls_fail _))
      exact fun _ h => List.mem_singleton.2 (Option.some.inj h).symm
  | strong => exact calls_ite (calls_inFile nofun (calls_fail _)) calls_done
  | weak => exact calls_ite (calls_inFile nofun (calls_fail _)) calls_done
  | ref => exact calls_done

theorem calls_eachWord {f : Nat → Trail} (h : ∀ off, (f off).Calls tags) :
    (eachWord image field n f).Calls (someTags n tags) :=
  calls_array fun _ => calls_ite (h _) calls_done

theorem calls_eachPtr {f : WidePtr → Trail} (h : ∀ fp, (f fp).Calls tags) :
    (eachPtr image field n f).Calls (someTags n tags) :=
  calls_array fun _ => h _

theorem calls_eachItem {f : EightCC → WidePtr → Trail} : ∀ (field : Nat) (items : List (Nat × Option EightCC)),
    (∀ item ∈ items, ∀ tag ∈ item.2, ∀ fp, (f tag fp).Calls tags) → (eachItem image f field items).Calls tags
  | _, [], _ => calls_done
  | field, (width, none) :: items, h => calls_eachItem (field + width) items fun item hitem => h item (.tail _ hitem)
  | field, (width, some tag) :: items, h =>
      calls_andThen (h _ (.head _) tag rfl _)
        (calls_eachItem (field + width) items fun item hitem => h item (.tail _ hitem))

theorem calls_tuple {items : List (Nat × Option EightCC)} :
    (eachItem image (foreignElemClone s kind) field items).Calls
      (items.flatMap fun item => item.2.elim [] (ownedTag kind)) := by
  refine calls_eachItem field items fun item hitem tag htag fp => calls_foreignElemClone.mono fun t ht => ?_
  rw [Option.mem_def] at htag
  exact List.mem_flatMap.2 ⟨item, hitem, by simpa [htag] using ht⟩

theorem calls_eachEmbed {base : Nat} : (eachEmbed s base n tag).Calls (someTags n [tag]) :=
  calls_array fun _ => calls_event fun _ h => List.mem_singleton.2 (Option.some.inj h).symm

theorem calls_inplace {pos : Nat} : (event (.inplace tag pos)).Calls [tag] :=
  calls_event fun _ h => List.mem_singleton.2 (Option.some.inj h).symm

theorem calls_eachElement {f : Nat → Trail} (h : ∀ off, (f off).Calls tags) : (eachElement s desc f).Calls tags :=
  calls_reading fun _ => calls_each fun _ _ => calls_ite (h _) calls_done

theorem calls_podVecDrop : (podVecDrop desc).Calls tags := calls_touch nofun

theorem calls_cloneDataInto : (cloneDataInto s desc).Calls tags := calls_reading fun _ => calls_touch nofun

theorem calls_elements {f : Nat → Trail} {last : Trail} (h : ∀ off, (f off).Calls tags) (hlast : last.Calls tags) :
    (reading (s.toVec desc) fun offs => (each f offs).andThen last).Calls tags :=
  calls_reading fun _ => calls_andThen (calls_each fun _ _ => h _) hlast

theorem calls_vecDrop : (vecDrop s kind tag desc).Calls (ownedTag kind tag) := by
  cases kind with
  | owned =>
      refine calls_elements (fun _ => calls_touch ?_) calls_podVecDrop
      exact fun _ h => List.mem_singleton.2 (Option.some.inj h).symm
  | strong => exact calls_elements (fun _ => calls_touch nofun) calls_podVecDrop
  | weak => exact calls_elements (fun _ => calls_touch nofun) calls_podVecDrop
  | ref => exact calls_podVecDrop

theorem calls_vecClone : (vecClone s kind tag desc).Calls (ownedTag kind tag) :=
  calls_elements (fun _ => calls_cloneRef) (calls_touch nofun)

/-! ### The parts of a type -/

theorem calls_fieldDrop (part : Part) : (part.fieldDrop s start image field).Calls part.fieldDropCalls := by
  cases part with
  | pod width => exact calls_done
  | block kind tag nullable => exact calls_scalarFieldDrop
  | embed tag => exact calls_reading fun _ => calls_inplace
  | foreign kind tag nullable => exact calls_foreignElemDrop
  | blockArray n kind tag nullable => exact calls_each fun _ _ => calls_ite calls_teardownRef calls_done
  | embedArray n tag => exact calls_reading fun _ => calls_eachEmbed
  | foreignArray n kind tag nullable => exact calls_each fun _ _ => calls_foreignElemDrop
  | foreignTuple kind items => exact calls_eachItem field items fun _ _ _ _ _ => calls_foreignElemDrop
  | podVec nullable => exact calls_ite (calls_ite calls_podVecDrop calls_done) calls_podVecDrop
  | blockVec kind tag nullable => exact calls_ite (calls_ite calls_vecDrop calls_done) calls_vecDrop
  | blockArrayVec kind tag nullable =>
      refine calls_ite ?_ calls_done
      cases kind with
      | ref => exact calls_podVecDrop
      | _ => exact calls_andThen (calls_eachElement fun _ => calls_teardownRef) calls_podVecDrop
  | foreignVec kind tag nullable =>
      refine calls_ite ?_ calls_done
      cases kind with
      | ref => exact calls_podVecDrop
      | _ =>
          exact calls_andThen (calls_reading fun _ => calls_each fun _ _ => calls_foreignElemDrop) calls_podVecDrop
  | vecArray n elem nullable =>
      cases elem with
      | none => exact calls_each fun _ _ => calls_ite calls_podVecDrop calls_done
      | some elem => exact calls_array fun _ => calls_ite calls_vecDrop calls_done

theorem calls_fieldClone (part : Part) : (part.fieldClone s start image field).Calls part.fieldCloneCalls := by
  cases part with
  | pod width => exact calls_done
  | block kind tag nullable => exact calls_cloneFieldStmt
  | embed tag => exact calls_reading fun _ => calls_inplace
  | foreign kind tag nullable => exact calls_foreignElemClone
  | blockArray n kind tag nullable => exact calls_eachWord fun _ => calls_cloneRef
  | embedArray n tag => exact calls_reading fun _ => calls_eachEmbed
  | foreignArray n kind tag nullable => exact calls_eachPtr fun _ => calls_foreignElemClone
  | foreignTuple kind items => exact calls_tuple
  | podVec nullable => exact calls_ite calls_cloneDataInto calls_done
  | blockVec kind tag nullable => exact calls_ite calls_vecClone calls_done
  | blockArrayVec kind tag nullable =>
      refine calls_ite ?_ calls_done
      cases kind with
      | ref => exact calls_cloneDataInto
      | _ => exact calls_andThen (calls_eachElement fun _ => calls_cloneRef) calls_cloneDataInto
  | foreignVec kind tag nullable =>
      refine calls_ite (calls_andThen (calls_reading fun _ => calls_each fun _ _ => ?_) (calls_touch nofun)) calls_done
      exact calls_foreignElemClone
  | vecArray n elem nullable =>
      cases elem with
      | none => exact calls_each fun _ _ => calls_ite calls_cloneDataInto calls_done
      | some elem => exact calls_array fun _ => calls_ite calls_vecClone calls_done

theorem calls_variantDrop (part : Part) : (part.variantDrop s start image field).Calls part.variantDropCalls := by
  cases part with
  | pod width => exact calls_done
  | block kind tag nullable => exact calls_teardownRef
  | embed tag => exact calls_inplace
  | foreign kind tag nullable => exact calls_foreignElemDrop
  | blockArray n kind tag nullable =>
      cases kind with
      | weak => exact calls_each fun _ _ => calls_touch nofun
      | _ => exact calls_each fun _ _ => calls_ite calls_teardownRef calls_done
  | embedArray n tag => exact calls_eachEmbed
  | foreignArray n kind tag nullable => exact calls_each fun _ _ => calls_foreignElemDrop
  | foreignTuple kind items => exact calls_eachItem field items fun _ _ _ _ _ => calls_foreignElemDrop
  | podVec nullable => exact calls_podVecDrop
  | blockVec kind tag nullable => exact calls_vecDrop
  | blockArrayVec kind tag nullable => exact calls_vecDrop
  | foreignVec kind tag nullable =>
      cases kind with
      | ref => exact calls_podVecDrop
      | _ =>
          exact calls_andThen (calls_reading fun _ => calls_each fun _ _ => calls_foreignElemDrop) calls_podVecDrop
  | vecArray n elem nullable => exact calls_done

theorem calls_variantClone (part : Part) : (part.variantClone s start image field).Calls part.variantCloneCalls := by
  cases part with
  | pod width => exact calls_done
  | block kind tag nullable => exact calls_cloneRef
  | embed tag => exact calls_inplace
  | foreign kind tag nullable => exact calls_foreignElemClone
  | blockArray n kind tag nullable =>
      cases kind with
      | weak => exact calls_each fun _ _ => calls_touch nofun
      | _ => exact calls_eachWord fun _ => calls_cloneRef
  | embedArray n tag => exact calls_eachEmbed
  | foreignArray n kind tag nullable => exact calls_eachPtr fun _ => calls_foreignElemClone
  | foreignTuple kind items => exact calls_tuple
  | podVec nullable => exact calls_cloneDataInto
  | blockVec kind tag nullable => exact calls_vecClone
  | blockArrayVec kind tag nullable => exact calls_vecClone
  | foreignVec kind tag nullable =>
      exact calls_andThen (calls_reading fun _ => calls_each fun _ _ => calls_foreignElemClone) (calls_touch nofun)
  | vecArray n elem nullable => exact calls_done

end Calls

/-! ### The types that a type calls -/

def Contents.calls (field variant : Part → List EightCC) : Contents → List EightCC
  | struct fields => fields.flatMap fun f => field f.2
  | enum _ _ _ variants => variants.flatMap fun v => variant v.2

namespace BlockKind

/-- The types that the teardown of a block calls without a guard. -/
def dropCalls : BlockKind → List EightCC
  | generated T => T.contents.calls Part.fieldDropCalls Part.variantDropCalls
  | collection value _ => [value]

/-- The types that the deep clone of a block calls. A shared block is not cloned. -/
def cloneCalls : BlockKind → List EightCC
  | generated T => if T.mode = .plain then T.contents.calls Part.fieldCloneCalls Part.variantCloneCalls else []
  | collection value _ => [value]

end BlockKind

section Types

variable {types : EightCC → BlockKind} {files : Nat → Storage} {b : BlockAt} {depth n : Nat}

theorem Contents.calls_walk {image : List UInt8} {field variant : Nat → Part → Trail}
    {fieldTags variantTags : Part → List EightCC}
    (hfield : ∀ off part, (field off part).Calls (fieldTags part))
    (hvariant : ∀ off part, (variant off part).Calls (variantTags part)) :
    ∀ c : Contents, (c.walk image field variant).Calls (c.calls fieldTags variantTags)
  | struct fields => calls_each fun f hf =>
      (hfield f.1 f.2).mono fun _ htag => List.mem_flatMap.2 ⟨f, hf, htag⟩
  | enum disc width payload variants => by
      refine calls_ite calls_done ?_
      match hlookup : variants.lookup (discriminant image disc width) with
      | none => exact calls_fail _
      | some part =>
          obtain ⟨before, after, rfl, -⟩ := List.lookup_eq_some_iff.1 hlookup
          refine (hvariant payload part).mono fun _ htag =>
            List.mem_flatMap.2 ⟨(discriminant image disc width, part), ?_, htag⟩
          exact List.mem_append_right _ List.mem_cons_self

theorem calls_dropBlock : (dropBlock types files b).Calls (types b.tag).dropCalls := by
  unfold dropBlock
  cases types b.tag with
  | generated T =>
      refine calls_ite calls_done (calls_reading fun image => ?_)
      exact Contents.calls_walk (fun _ part => calls_fieldDrop part) (fun _ part => calls_variantDrop part) T.contents
  | collection value checked =>
      refine calls_reading fun _ => calls_each fun _ _ => calls_ite (calls_touch ?_) calls_done
      exact fun _ h => List.mem_singleton.2 (Option.some.inj h).symm

theorem calls_cloneBlock : (cloneBlock types files b).Calls (types b.tag).cloneCalls := by
  unfold cloneBlock
  cases types b.tag with
  | generated T =>
      simp only [BlockKind.cloneChildren, BlockKind.cloneCalls, GenType.cloneChildren]
      split
      · refine calls_reading fun image => ?_
        exact Contents.calls_walk (fun _ part => calls_fieldClone part)
          (fun _ part => calls_variantClone part) T.contents
      · exact calls_fail _
  | collection value checked =>
      have htouch (off : Nat) : (touch (.copy value) off).Calls [value] :=
        calls_touch fun _ h => List.mem_singleton.2 (Option.some.inj h).symm
      exact calls_reading fun _ => calls_each fun off _ => calls_ite (calls_ite (htouch off) calls_done) (htouch off)

/-! ### The bound -/

instance : Finite EightCC := by
  refine Finite.of_injective (fun (cc : EightCC) (i : Fin 8) => (cc.bytes.getD i 0).toFin) fun a b h => ?_
  obtain ⟨as, ha⟩ := a
  obtain ⟨bs, hb⟩ := b
  simp only [EightCC.mk.injEq]
  refine List.ext_getElem (ha.trans hb.symm) fun i hi hi' => ?_
  have hbyte := UInt8.toFin_inj.1 (congrFun h ⟨i, ha ▸ hi⟩)
  simpa [List.getD_eq_getElem?_getD, hi, hi'] using hbyte

/-- The calls between two guards go down in rank, and there are only so many guards. -/
theorem Nest.le {Files : Type} {walk : Files → BlockAt → Trail} {calls : EightCC → List EightCC}
    (hacyclic : Rank.Acyclic fun t u => u ∈ calls t)
    (hcalls : ∀ files b, (walk files b).Calls (calls b.tag)) (hdepth : depth ≤ MAX_TEARDOWN_DEPTH)
    (h : Nest walk depth b n) :
    n ≤ (MAX_TEARDOWN_DEPTH - depth) * (Nat.card EightCC + 1) + Rank.rank (fun t u => u ∈ calls t) b.tag := by
  induction h with
  | here depth b => exact Nat.zero_le _
  | @deeper files depth n b b' e hmem hblock hguard h ih =>
      have ih := ih hguard
      obtain hone | ⟨hnone, htarget⟩ := e.guards_or hblock
      · rw [hone] at ih hguard
        have hrank := Rank.rank_le (r := fun t u => u ∈ calls t) b'.tag
        have hlevel : MAX_TEARDOWN_DEPTH - depth = MAX_TEARDOWN_DEPTH - (depth + 1) + 1 := by omega
        rw [hlevel, Nat.add_one_mul]
        omega
      · rw [hnone, Nat.add_zero] at ih
        have hrank := Rank.rank_lt hacyclic (hcalls files b e hmem b'.tag htarget)
        omega

end Types

/-! ### Runs -/

section Runs

variable {Files : Type} {walk : BlockAt → Trail} {meets : Meets} {b b' : BlockAt} {depth limit : Nat}

theorem inOrder_none {call : Event → Option (Except IoError Unit)} {out : Except IoError Unit} {es : List Event}
    (h : inOrder call out es = none) : ∃ e ∈ es, call e = none := by
  induction es with
  | nil => cases h
  | cons e es ih =>
      rw [inOrder] at h
      split at h
      · obtain ⟨e', hmem, he'⟩ := ih h
        exact ⟨e', List.mem_cons_of_mem e hmem, he'⟩
      · exact ⟨e, List.mem_cons_self, h⟩

theorem inOrder_ok {call : Event → Option (Except IoError Unit)} {out : Except IoError Unit} {es : List Event}
    (h : inOrder call out es = some (.ok ())) : ∀ e ∈ es, call e = some (.ok ()) := by
  induction es with
  | nil =>
      intro e he
      cases he
  | cons e es ih =>
      rw [inOrder] at h
      split at h
      case h_1 hcall => exact List.forall_mem_cons.2 ⟨hcall, ih h⟩
      case h_2 hcall => exact absurd h hcall

variable {nested : Nat → BlockAt → Option (Except IoError Unit)} {e : Event}

theorem Event.call_none (h : e.call meets nested depth b = none) :
    depth + e.guards ≤ MAX_TEARDOWN_DEPTH ∧ ∃ b', e.block b = some b' ∧ nested (depth + e.guards) b' = none := by
  unfold Event.call at h
  split at h
  case isTrue => cases h
  case isFalse hguard =>
    refine ⟨Nat.le_of_not_lt hguard, ?_⟩
    split at h
    case h_1 => cases h
    case h_2 last b' _ hblock =>
      split at h
      · exact ⟨b', hblock, h⟩
      · cases h
    case h_3 => cases h

theorem Event.call_ok (h : e.call meets nested depth b = some (.ok ())) (hblock : e.block b = some b')
    (hwalks : ∀ last, meets b e = .ok last → e.walks last) : nested (depth + e.guards) b' = some (.ok ()) := by
  unfold Event.call at h
  split at h
  case isTrue => cases h
  case isFalse =>
    rw [hblock] at h
    cases hmeets : meets b e with
    | error err =>
        rw [hmeets] at h
        cases h
    | ok last =>
        rw [hmeets] at h
        dsimp only at h
        rwa [if_pos (hwalks last hmeets)] at h

/-- A native stack that the walk fills has calls in it as deep as the stack. -/
theorem nest_of_run (h : run walk meets limit depth b = none) : Nest (fun _ : Unit => walk) depth b limit := by
  induction limit generalizing depth b with
  | zero => exact .here depth b
  | succ limit ih =>
      obtain ⟨e, hmem, hcall⟩ := inOrder_none h
      obtain ⟨hguard, b', hblock, hnested⟩ := Event.call_none hcall
      exact .deeper () hmem hblock hguard (ih hnested)

theorem Nest.of_files {walk : Files → BlockAt → Trail} {files : Files} {n : Nat}
    (h : Nest (fun _ : Unit => walk files) depth b n) : Nest walk depth b n := by
  induction h with
  | here depth b => exact .here depth b
  | deeper _ hmem hblock hguard _ ih => exact .deeper files hmem hblock hguard ih

/-- The walk of `b` calls the one of `b'`. -/
def CallsBlock (walk : BlockAt → Trail) (meets : Meets) (b b' : BlockAt) : Prop :=
  ∃ e ∈ (walk b).events, e.block b = some b' ∧ ∀ last, meets b e = .ok last → e.walks last

/-- The calls from `b` lead to a block that they lead back to. -/
def MeetsCycle (walk : BlockAt → Trail) (meets : Meets) (b : BlockAt) : Prop :=
  ∃ c, Relation.ReflTransGen (CallsBlock walk meets) b c ∧ Relation.TransGen (CallsBlock walk meets) c c

theorem MeetsCycle.next (h : MeetsCycle walk meets b) :
    ∃ b', CallsBlock walk meets b b' ∧ MeetsCycle walk meets b' := by
  obtain ⟨c, hreach, hcycle⟩ := h
  obtain rfl | ⟨b', hcall, hrest⟩ := hreach.cases_head
  · obtain ⟨b', hcall, hback⟩ := Relation.TransGen.head'_iff.1 hcycle
    exact ⟨b', hcall, b, hback, hcycle⟩
  · exact ⟨b', hcall, c, hrest, hcycle⟩

/-- A walk that meets a cycle does not succeed: the calls of the cycle would all have to. -/
theorem MeetsCycle.run_ne_ok (h : MeetsCycle walk meets b) : run walk meets limit depth b ≠ some (.ok ()) := by
  induction limit generalizing depth b with
  | zero => simp [run]
  | succ limit ih =>
      intro hrun
      obtain ⟨b', hcalls, hcycle⟩ := h.next
      obtain ⟨e, hmem, hblock, hwalks⟩ := hcalls
      exact ih hcycle (Event.call_ok (inOrder_ok hrun e hmem) hblock hwalks)

/-- A constant bounds the native recursion of the walk, whatever the files hold at each of its calls. -/
def Bounded (walk : Files → BlockAt → Trail) : Prop := ∃ limit, ∀ b n, Nest walk 0 b n → n ≤ limit

/-- On a native stack of a constant size, the walk returns whatever the files hold, with an error if it meets a
cycle. -/
def Returns (walk : Files → BlockAt → Trail) : Prop :=
  ∃ limit, ∀ files meets b, ∃ result, run (walk files) meets limit 0 b = some result ∧
    (MeetsCycle (walk files) meets b → ∃ e, result = .error e)

theorem Bounded.returns {walk : Files → BlockAt → Trail} (h : Bounded walk) : Returns walk := by
  obtain ⟨limit, hlimit⟩ := h
  refine ⟨limit + 1, fun files meets b => ?_⟩
  cases hrun : run (walk files) meets (limit + 1) 0 b with
  | none =>
      have hle := hlimit b (limit + 1) (nest_of_run hrun).of_files
      omega
  | some result =>
      refine ⟨result, rfl, fun hcycle => ?_⟩
      cases result with
      | ok => exact absurd hrun hcycle.run_ne_ok
      | error e => exact ⟨e, rfl⟩

theorem Bounded.of_acyclic {walk : Files → BlockAt → Trail} {calls : EightCC → List EightCC}
    (hcalls : ∀ files b, (walk files b).Calls (calls b.tag)) (hacyclic : Rank.Acyclic fun t u => u ∈ calls t) :
    Bounded walk := by
  refine ⟨MAX_TEARDOWN_DEPTH * (Nat.card EightCC + 1) + Nat.card EightCC, fun b n h => ?_⟩
  have hle := Nest.le hacyclic hcalls (Nat.zero_le _) h
  rw [Nat.sub_zero] at hle
  have hrank := Rank.rank_le (r := fun t u => u ∈ calls t) b.tag
  omega

end Runs

/-- The guards bound the teardown, if the calls without a guard lead from no type back to it, and the types bound
the deep clone, if none of its calls do. -/
theorem recursion_bounded (types : EightCC → BlockKind) :
    ((Rank.Acyclic fun t u => u ∈ (types t).dropCalls) →
      Bounded (dropBlock types) ∧ Returns (dropBlock types)) ∧
    ((Rank.Acyclic fun t u => u ∈ (types t).cloneCalls) →
      Bounded (cloneBlock types) ∧ Returns (cloneBlock types)) := by
  constructor
  · intro hacyclic
    have hbounded : Bounded (dropBlock types) := .of_acyclic (fun _ _ => calls_dropBlock) hacyclic
    exact ⟨hbounded, hbounded.returns⟩
  · intro hacyclic
    have hbounded : Bounded (cloneBlock types) := .of_acyclic (fun _ _ => calls_cloneBlock) hacyclic
    exact ⟨hbounded, hbounded.returns⟩

theorem Nest.loop {walk : BlockAt → Trail} {b : BlockAt} {e : Event} (hmem : e ∈ (walk b).events)
    (hblock : e.block b = some b) (hguard : e.guards = 0) : ∀ n, Nest (fun _ : Unit => walk) 0 b n
  | 0 => .here 0 b
  | n + 1 => by
      refine .deeper () hmem hblock ?_ ?_
      · simp [hguard]
      · rw [hguard]
        exact Nest.loop hmem hblock hguard n

theorem not_bounded_of_loop {walk : BlockAt → Trail} (b : BlockAt) (e : Event) (hmem : e ∈ (walk b).events)
    (hblock : e.block b = some b) (hguard : e.guards = 0) : ¬Bounded fun _ : Unit => walk := by
  rintro ⟨limit, h⟩
  have hle := h b (limit + 1) (Nest.loop hmem hblock hguard _)
  omega

/-- Blocks with a vector of owned blocks of their own type, and blocks with one owned block of their own type. -/
def vecNode (_ : EightCC) : BlockKind := .generated ⟨32, .plain, .struct [(16, .blockVec .owned .zero false)]⟩

def linkNode (_ : EightCC) : BlockKind := .generated ⟨24, .plain, .struct [(16, .block .owned .zero false)]⟩

def selfOwned (_ : Nat) : Storage where
  data := (List.replicate 6 (leBytes 8 16)).flatten
  attached := fun _ => false
  sizeOf := fun _ => 32
  elements := fun _ => .ok (leBytes 8 16)
  values := fun _ => .ok []

/-- The teardown of a link to itself ends with an error, on a native stack that holds the ones of all links. -/
theorem recursion_bounded_link : ∃ limit e, run (dropBlock linkNode selfOwned) (fun _ _ => .ok true) limit 0
    ⟨0, .zero, 16⟩ = some (.error e) := by
  have hbounded := (recursion_bounded linkNode).1 fun t h => by
    obtain ⟨u, h, -⟩ := Relation.TransGen.head'_iff.1 h
    cases h
  obtain ⟨limit, hreturns⟩ := hbounded.2
  obtain ⟨result, hrun, herror⟩ := hreturns selfOwned (fun _ _ => .ok true) ⟨0, .zero, 16⟩
  have hcalls : CallsBlock (dropBlock linkNode selfOwned) (fun _ _ => .ok true) ⟨0, .zero, 16⟩ ⟨0, .zero, 16⟩ :=
    ⟨.touch ⟨0, .owned .zero, 16⟩, by decide, rfl, fun _ _ => rfl⟩
  obtain ⟨e, rfl⟩ := herror ⟨_, .refl, .single hcalls⟩
  exact ⟨limit, e, hrun⟩

/-- The vectors have no such bound, nor has the deep clone of the links, in a file that stays as it is. -/
theorem recursion_unbounded : ¬Bounded (fun _ : Unit => dropBlock vecNode selfOwned) ∧
    ¬Bounded (fun _ : Unit => cloneBlock linkNode selfOwned) := by
  constructor
  · exact not_bounded_of_loop ⟨0, .zero, 16⟩ (.touch ⟨0, .element .zero, 16⟩) (by decide) rfl rfl
  · exact not_bounded_of_loop ⟨0, .zero, 16⟩ (.touch ⟨0, .copy .zero, 16⟩) (by decide) rfl rfl

end SlotWalk

end BStackRaii
