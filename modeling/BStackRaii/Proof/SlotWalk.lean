import BStackRaii.Proof.RttiWalk
/-!
# Null slots in the generated walks

Most statements look at an offset before they use it. The ones that do not are the arms of an enum for a
single reference, for an array of weak references and for a vector, the elements of the vectors of references,
and the teardown of a vector field that is not an `Option`. `bare` lists the offsets that a walk uses as they
are, as far as the walk comes, which is up to a vector that it cannot read or a file that is not attached: the
walk leaves every null slot alone exactly if none of them is null.
-/

namespace BStackRaii

namespace SlotWalk

open Trail

/-! ### Trails -/

namespace Trail

/-- No action is at a null offset. -/
def Inert (a : Trail) : Prop := ∀ t, .touch t ∈ a.events → t.off ≠ 0

variable {a b : Trail} {β : Type}

@[simp] theorem inert_done : done.Inert := nofun

@[simp] theorem inert_fail (e : IoError) : (fail e).Inert := nofun

@[simp] theorem inert_inplace (tag : EightCC) (pos : Nat) : (event (.inplace tag pos)).Inert := by
  simp [Inert, event]

@[simp] theorem inert_event_touch {t : Touch} : (event (.touch t)).Inert ↔ t.off ≠ 0 := by
  simp [Inert, event]

@[simp] theorem inert_touch {action : Action} {off : Nat} : (touch action off).Inert ↔ off ≠ 0 :=
  inert_event_touch

@[simp] theorem out_event (e : Event) : (event e).out = .ok () := rfl

@[simp] theorem out_touch (action : Action) (off : Nat) : (touch action off).out = .ok () := rfl

@[simp] theorem out_done : done.out = .ok () := rfl

theorem inert_andThen : (a.andThen b).Inert ↔ a.Inert ∧ (a.out = .ok () → b.Inert) := by
  unfold andThen
  match hout : a.out with
  | .ok () => simp [Inert, or_imp, forall_and]
  | .error e => simp

theorem inert_reading {r : Except IoError β} {k : β → Trail} :
    (reading r k).Inert ↔ ∀ x, r = .ok x → (k x).Inert := by
  cases r <;> simp [reading]

theorem out_andThen : (a.andThen b).out = .ok () ↔ a.out = .ok () ∧ b.out = .ok () := by
  unfold andThen
  match hout : a.out with
  | .ok () => simp
  | .error e => simp [hout]

theorem out_each {walk : β → Trail} {xs : List β} : (each walk xs).out = .ok () ↔ ∀ x ∈ xs, (walk x).out = .ok () := by
  induction xs with
  | nil => simp [each]
  | cons x xs ih => rw [each, out_andThen, ih, List.forall_mem_cons]

/-- What the turns of a loop have, up to the first one that does not come to its end. -/
def reached (ends : β → Bool) (bare : β → List Nat) : List β → List Nat
  | [] => []
  | x :: xs => bare x ++ if ends x then reached ends bare xs else []

/-- A loop is inert if its turns are, as far as it comes. -/
theorem inert_each {walk : β → Trail} (ends : β → Bool) (bare : β → List Nat)
    (hends : ∀ x, (walk x).out = .ok () ↔ ends x) (h : ∀ x, (walk x).Inert ↔ 0 ∉ bare x) (xs : List β) :
    (each walk xs).Inert ↔ 0 ∉ reached ends bare xs := by
  induction xs with
  | nil => simp [each, reached]
  | cons x xs ih =>
      rw [each, inert_andThen, h x, hends x, ih, reached]
      cases ends x <;> simp

theorem reached_all (bare : β → List Nat) (xs : List β) : reached (fun _ => true) bare xs = xs.flatMap bare := by
  induction xs with
  | nil => rfl
  | cons x xs ih => rw [reached, if_pos rfl, ih, List.flatMap_cons]

theorem inert_each_of {walk : β → Trail} : ∀ {xs : List β}, (∀ x ∈ xs, (walk x).Inert) → (each walk xs).Inert
  | [], _ => inert_done
  | x :: _, h => inert_andThen.2 ⟨h x List.mem_cons_self, fun _ =>
      inert_each_of fun y hy => h y (List.mem_cons_of_mem x hy)⟩

/-- A loop that uses each offset as it is. -/
theorem inert_each_touch {walk : β → Trail} (off : β → Nat) (hout : ∀ x, (walk x).out = .ok ())
    (h : ∀ x, (walk x).Inert ↔ off x ≠ 0) (xs : List β) : (each walk xs).Inert ↔ 0 ∉ xs.map off := by
  rw [inert_each (fun _ => true) (fun x => [off x]) (fun x => by simp [hout x]) (fun x => by simp [h x, eq_comm]),
    reached_all, List.map_eq_flatMap]

theorem out_guard {walk : Trail} {off : Nat} :
    (if off ≠ 0 then walk else done).out = .ok () ↔ off = 0 ∨ walk.out = .ok () := by
  by_cases hoff : off = 0 <;> simp [hoff]

end Trail

/-! ### References -/

section References

variable {s : Surroundings} {kind : OwnershipKind} {tag : EightCC} {off n start field : Nat} {image : List UInt8}
  {fp : WidePtr}

theorem inert_teardownRef : (teardownRef kind tag off).Inert ↔ kind = .ref ∨ off ≠ 0 := by
  cases kind <;> simp [teardownRef]

theorem inert_cloneRef : (cloneRef kind tag off).Inert ↔ kind = .ref ∨ off ≠ 0 := by
  cases kind <;> simp [cloneRef]

theorem out_cloneRef : (cloneRef kind tag off).out = .ok () := by cases kind <;> rfl

theorem inert_guarded {action : Action} : (if off ≠ 0 then touch action off else done).Inert := by
  split <;> simp [*]

theorem inert_scalarFieldDrop : (scalarFieldDrop kind tag off).Inert := by
  cases kind with
  | owned => exact inert_guarded
  | strong => exact inert_guarded
  | weak => exact inert_guarded
  | ref => exact inert_done

theorem inert_cloneFieldStmt : (cloneFieldStmt kind tag off).Inert := by
  cases kind with
  | owned => exact inert_guarded
  | strong => exact inert_guarded
  | weak => exact inert_guarded
  | ref => exact inert_done

theorem inert_inFile {action : Action} {detached : Trail} (hoff : fp.offset ≠ 0) (h : detached.Inert) :
    (inFile s fp action detached).Inert := by
  unfold inFile
  split
  · simpa using hoff
  · split
    · simpa using hoff
    · exact h

theorem inert_foreignElemDrop : (foreignElemDrop s kind tag fp).Inert := by
  unfold foreignElemDrop
  split
  case isTrue hoff => cases kind <;> first | exact inert_inFile hoff inert_done | exact inert_done
  case isFalse => exact inert_done

theorem out_foreignElemDrop : (foreignElemDrop s kind tag fp).out = .ok () := by
  unfold foreignElemDrop inFile
  cases kind <;> dsimp only <;> split_ifs <;> rfl

theorem inert_foreignElemClone : (foreignElemClone s kind tag fp).Inert := by
  by_cases hoff : fp.offset = 0
  · cases kind <;> simp [foreignElemClone, hoff]
  · cases kind <;> simp only [foreignElemClone, ne_eq, hoff, not_false_eq_true, if_true, if_false] <;>
      first | exact inert_inFile hoff (inert_fail _) | exact inert_done

theorem inert_eachWord {f : Nat → Trail} (h : ∀ off, off ≠ 0 → (f off).Inert) :
    (eachWord image field n f).Inert :=
  inert_each_of fun k _ => by
    split
    case isTrue hoff => exact h _ hoff
    case isFalse => exact inert_done

theorem inert_eachPtr {f : WidePtr → Trail} (h : ∀ fp, (f fp).Inert) : (eachPtr image field n f).Inert :=
  inert_each_of fun _ _ => h _

theorem inert_eachItem {f : EightCC → WidePtr → Trail} (h : ∀ tag fp, (f tag fp).Inert) :
    ∀ (field : Nat) (items : List (Nat × Option EightCC)), (eachItem image f field items).Inert
  | _, [] => inert_done
  | field, (width, none) :: items => inert_eachItem h (field + width) items
  | field, (width, some _) :: items => inert_andThen.2 ⟨h _ _, fun _ => inert_eachItem h (field + width) items⟩

theorem inert_eachEmbed {base : Nat} : (eachEmbed s base n tag).Inert :=
  inert_each_of fun _ _ => inert_inplace _ _

theorem inert_eachElement {desc : Range} {f : Nat → Trail} (h : ∀ off, off ≠ 0 → (f off).Inert) :
    (eachElement s desc f).Inert :=
  inert_reading.2 fun _ _ => inert_each_of fun off _ => by
    split
    case isTrue hoff => exact h _ hoff
    case isFalse => exact inert_done

end References

/-! ### How far a walk comes -/

section Ends

variable (s : Surroundings)

def readable (desc : Range) : Bool := (s.elements desc).isOk

/-- A clone finds the file of the pointer, if it looks for it. -/
def found (kind : OwnershipKind) (fp : WidePtr) : Bool :=
  kind = .ref || fp.offset = 0 || fp.file = 0 || s.attached fp.file

def pointersFound (kind : OwnershipKind) (desc : Range) : Bool :=
  match s.toPtrs desc with
  | .ok fps => fps.all (found s kind)
  | .error _ => false

def itemsFound (kind : OwnershipKind) (image : List UInt8) : Nat → List (Nat × Option EightCC) → Bool
  | _, [] => true
  | field, (width, none) :: items => itemsFound kind image (field + width) items
  | field, (width, some _) :: items =>
      found s kind (widePtr image field) && itemsFound kind image (field + width) items

/-- The teardown of a vector of raw references does not read it. -/
def dropEnds (kind : OwnershipKind) (desc : Range) : Bool := kind = .ref || readable s desc

/-- A vector that is not there is no vector to read. -/
def slotEnds (desc : Range) (ends : Bool) : Bool := desc.start = 0 || ends

/-- The teardown of the field comes to its end. -/
def Part.fieldDropEnds (start : Nat) (image : List UInt8) (field : Nat) : Part → Bool
  | embed _ | embedArray _ _ => (checkedOff start field).isOk
  | blockVec kind _ nullable =>
      if nullable then slotEnds (vecDesc image field) (dropEnds s kind (vecDesc image field))
      else dropEnds s kind (vecDesc image field)
  | blockArrayVec kind _ _ => slotEnds (vecDesc image field) (dropEnds s kind (vecDesc image field))
  | foreignVec kind _ _ => slotEnds (vecDesc image field) (dropEnds s kind (vecDesc image field))
  | vecArray n elem _ => (List.range n).all fun k =>
      slotEnds (vecDesc image (field + k * 16))
        (elem.elim true fun e => dropEnds s e.1 (vecDesc image (field + k * 16)))
  | _ => true

/-- The deep clone of the field comes to its end. -/
def Part.fieldCloneEnds (start : Nat) (image : List UInt8) (field : Nat) : Part → Bool
  | embed _ | embedArray _ _ => (checkedOff start field).isOk
  | foreign kind _ _ => found s kind (widePtr image field)
  | foreignArray n kind _ _ => (List.range n).all fun k => found s kind (widePtr image (field + k * 16))
  | foreignTuple kind items => itemsFound s kind image field items
  | podVec _ | blockVec _ _ _ | blockArrayVec _ _ _ =>
      slotEnds (vecDesc image field) (readable s (vecDesc image field))
  | foreignVec kind _ _ => slotEnds (vecDesc image field) (pointersFound s kind (vecDesc image field))
  | vecArray n _ _ => (List.range n).all fun k =>
      slotEnds (vecDesc image (field + k * 16)) (readable s (vecDesc image (field + k * 16)))
  | _ => true

variable {s} {kind : OwnershipKind} {tag : EightCC} {desc : Range} {fp : WidePtr} {image : List UInt8}
  {field n start : Nat} {elem : Option (OwnershipKind × EightCC)}

theorem out_elements {f : List UInt8 → Trail} (hf : ∀ bytes, (f bytes).out = .ok ()) :
    (reading (s.elements desc) f).out = .ok () ↔ readable s desc := by
  rw [readable]
  cases s.elements desc with
  | ok bytes => simp [reading, hf, Except.isOk, Except.toBool]
  | error e => simp [reading, fail, Except.isOk, Except.toBool]

theorem out_toVec {f : List Nat → Trail} (hf : ∀ offs, (f offs).out = .ok ()) :
    (reading (s.toVec desc) f).out = .ok () ↔ readable s desc := by
  rw [readable, Surroundings.toVec]
  cases s.elements desc with
  | ok bytes => simp [reading, hf, Except.map, Except.isOk, Except.toBool]
  | error e => simp [reading, fail, Except.map, Except.isOk, Except.toBool]

theorem out_toPtrs {f : List WidePtr → Trail} (hf : ∀ fps, (f fps).out = .ok ()) :
    (reading (s.toPtrs desc) f).out = .ok () ↔ readable s desc := by
  rw [readable, Surroundings.toPtrs]
  cases s.elements desc with
  | ok bytes => simp [reading, hf, Except.map, Except.isOk, Except.toBool]
  | error e => simp [reading, fail, Except.map, Except.isOk, Except.toBool]

theorem out_foreignElemClone : (foreignElemClone s kind tag fp).out = .ok () ↔ found s kind fp := by
  by_cases hoff : fp.offset = 0
  · cases kind <;> simp [foreignElemClone, found, hoff]
  · by_cases hfile : fp.file = 0
    · cases kind <;> simp [foreignElemClone, found, inFile, hoff, hfile]
    · cases hatt : s.attached fp.file <;> cases kind <;>
        simp [foreignElemClone, found, inFile, hoff, hfile, hatt, fail]

theorem out_eachItem (items : List (Nat × Option EightCC)) :
    (eachItem image (foreignElemClone s kind) field items).out = .ok () ↔ itemsFound s kind image field items := by
  induction items generalizing field with
  | nil => simp [eachItem, itemsFound]
  | cons item items ih =>
      obtain ⟨width, item⟩ := item
      cases item with
      | none => rw [eachItem, itemsFound, ih]
      | some tag => rw [eachItem, itemsFound, out_andThen, out_foreignElemClone, ih, Bool.and_eq_true]

theorem out_eachItemDrop (items : List (Nat × Option EightCC)) :
    (eachItem image (foreignElemDrop s kind) field items).out = .ok () := by
  induction items generalizing field with
  | nil => rfl
  | cons item items ih =>
      obtain ⟨width, item⟩ := item
      cases item with
      | none => exact ih
      | some tag => exact out_andThen.2 ⟨out_foreignElemDrop, ih⟩

theorem out_pointers : (reading (s.toPtrs desc) (each (foreignElemClone s kind tag))).out = .ok () ↔
    pointersFound s kind desc := by
  rw [pointersFound]
  cases s.toPtrs desc with
  | ok fps =>
      simp only [reading, out_each, List.all_eq_true]
      exact forall₂_congr fun _ _ => out_foreignElemClone
  | error e => simp [reading, fail]

theorem out_eachEmbed {base : Nat} : (eachEmbed s base n tag).out = .ok () := out_each.2 fun _ _ => rfl

theorem out_eachWord {f : Nat → Trail} (hf : ∀ off, (f off).out = .ok ()) :
    (eachWord image field n f).out = .ok () := out_each.2 fun _ _ => out_guard.2 (.inr (hf _))

theorem out_eachElement {f : Nat → Trail} (hf : ∀ off, (f off).out = .ok ()) :
    (eachElement s desc f).out = .ok () ↔ readable s desc :=
  out_toVec fun _ => out_each.2 fun _ _ => out_guard.2 (.inr (hf _))

theorem out_teardownRef {off : Nat} : (teardownRef kind tag off).out = .ok () := by cases kind <;> rfl

theorem out_vecDrop : (vecDrop s kind tag desc).out = .ok () ↔ dropEnds s kind desc := by
  have helements (release : Nat → Trail) (hrelease : ∀ off, (release off).out = .ok ()) :
      (elementsDrop s release desc).out = .ok () ↔ readable s desc :=
    out_toVec fun _ => out_andThen.2 ⟨out_each.2 fun off _ => hrelease off, rfl⟩
  cases kind with
  | ref => simp [vecDrop, refVecDrop, podVecDrop, dropEnds]
  | owned => simpa [vecDrop, blockVecDrop, dropEnds] using helements (touch (.element tag)) fun _ => rfl
  | strong => simpa [vecDrop, strongVecDrop, dropEnds] using helements (touch (.strong tag)) fun _ => rfl
  | weak => simpa [vecDrop, weakVecDrop, dropEnds] using helements (touch .weak) fun _ => rfl

theorem out_vecClone : (vecClone s kind tag desc).out = .ok () ↔ readable s desc :=
  out_toVec fun _ => out_andThen.2 ⟨out_each.2 fun _ _ => out_cloneRef, rfl⟩

theorem out_slot {walk : Trail} {ends : Bool} (h : walk.out = .ok () ↔ ends) :
    (if desc.start ≠ 0 then walk else done).out = .ok () ↔ slotEnds desc ends := by
  rw [out_guard, h, slotEnds, Bool.or_eq_true, decide_eq_true_eq]

theorem out_vecSlotDrop : (vecSlotDrop s elem desc).out = .ok () ↔
    slotEnds desc (elem.elim true fun e => dropEnds s e.1 desc) := by
  cases elem with
  | none => exact out_slot (by simp [podVecDrop])
  | some e => exact out_slot out_vecDrop

theorem out_vecCloneStmt : (vecCloneStmt s elem desc).out = .ok () ↔ slotEnds desc (readable s desc) := by
  cases elem with
  | none => exact out_slot (out_elements fun _ => rfl)
  | some e => exact out_slot out_vecClone

theorem out_checkedOff {f : Nat → Trail} (hf : ∀ pos, (f pos).out = .ok ()) :
    (reading (checkedOff start field) f).out = .ok () ↔ (checkedOff start field).isOk := by
  cases checkedOff start field with
  | ok pos => simp [reading, hf, Except.isOk, Except.toBool]
  | error e => simp [reading, fail, Except.isOk, Except.toBool]

theorem out_all {walk : Nat → Trail} {ends : Nat → Bool} (h : ∀ k, (walk k).out = .ok () ↔ ends k) :
    (each walk (List.range n)).out = .ok () ↔ (List.range n).all ends := by
  rw [out_each, List.all_eq_true]
  exact forall₂_congr fun k _ => h k

theorem out_fieldDrop (part : Part) :
    (part.fieldDrop s start image field).out = .ok () ↔ part.fieldDropEnds s start image field := by
  have halways {walk : Trail} (h : walk.out = .ok ()) : walk.out = .ok () ↔ (true : Bool) := by simp [h]
  have harray {walk : Trail} {kind : OwnershipKind} (hkind : kind ≠ .ref)
      (h : walk.out = .ok () ↔ readable s (vecDesc image field)) :
      (walk.andThen (podVecDrop (vecDesc image field))).out = .ok () ↔ dropEnds s kind (vecDesc image field) := by
    simp [out_andThen, h, podVecDrop, dropEnds, hkind]
  cases part with
  | pod => exact halways rfl
  | block kind tag => exact halways (by cases kind <;> first | rfl | exact out_guard.2 (.inr rfl))
  | embed => exact out_checkedOff fun _ => rfl
  | foreign => exact halways out_foreignElemDrop
  | blockArray => exact halways (out_eachWord fun _ => out_teardownRef)
  | embedArray => exact out_checkedOff fun _ => out_eachEmbed
  | foreignArray => exact halways (out_each.2 fun _ _ => out_foreignElemDrop)
  | foreignTuple kind items => exact halways (out_eachItemDrop items)
  | podVec nullable => exact halways (by cases nullable <;> first | rfl | exact out_guard.2 (.inr rfl))
  | blockVec kind tag nullable =>
      cases nullable with
      | true => exact out_slot out_vecDrop
      | false => exact out_vecDrop
  | blockArrayVec kind =>
      refine out_slot ?_
      cases kind with
      | ref => simp [podVecDrop, dropEnds]
      | owned | strong | weak => exact harray (by decide) (out_eachElement fun _ => out_teardownRef)
  | foreignVec kind =>
      refine out_slot ?_
      cases kind with
      | ref => simp [podVecDrop, dropEnds]
      | owned | strong | weak =>
          exact harray (by decide) (out_toPtrs fun _ => out_each.2 fun _ _ => out_foreignElemDrop)
  | vecArray => exact out_all fun _ => out_vecSlotDrop

theorem out_fieldClone (part : Part) :
    (part.fieldClone s start image field).out = .ok () ↔ part.fieldCloneEnds s start image field := by
  have halways {walk : Trail} (h : walk.out = .ok ()) : walk.out = .ok () ↔ (true : Bool) := by simp [h]
  have hdata {walk : Trail} (h : walk.out = .ok () ↔ readable s (vecDesc image field)) :
      (walk.andThen (cloneDataInto s (vecDesc image field))).out = .ok () ↔ readable s (vecDesc image field) := by
    rw [out_andThen, h, cloneDataInto, out_elements fun _ => rfl, and_self_iff]
  cases part with
  | pod => exact halways rfl
  | block kind tag => exact halways (by cases kind <;> first | rfl | exact out_guard.2 (.inr rfl))
  | embed => exact out_checkedOff fun _ => rfl
  | foreign => exact out_foreignElemClone
  | blockArray => exact halways (out_eachWord fun _ => out_cloneRef)
  | embedArray => exact out_checkedOff fun _ => out_eachEmbed
  | foreignArray => exact out_all fun _ => out_foreignElemClone
  | foreignTuple kind items => exact out_eachItem items
  | podVec => exact out_vecCloneStmt
  | blockVec => exact out_vecCloneStmt
  | blockArrayVec kind =>
      refine out_slot ?_
      cases kind with
      | ref => exact out_elements fun _ => rfl
      | owned | strong | weak => exact hdata (out_eachElement fun _ => out_cloneRef)
  | foreignVec kind =>
      refine out_slot ?_
      rw [out_andThen, out_pointers]
      simp
  | vecArray => exact out_all fun _ => out_vecCloneStmt

end Ends

/-! ### Offsets that are used as they are -/

section Bare

variable (s : Surroundings)

/-- The elements of a vector of references and its array, if it can be read. -/
def vecBare (kind : OwnershipKind) (desc : Range) : List Nat :=
  match s.toVec desc with
  | .ok offs => (if kind = .ref then [] else offs) ++ [desc.start]
  | .error _ => []

def vecDropBare (kind : OwnershipKind) (desc : Range) : List Nat :=
  if kind = .ref then [desc.start] else vecBare s kind desc

def optionalVecBare (bare : List Nat) (desc : Range) : List Nat := if desc.start = 0 then [] else bare

def Part.fieldDropBare (image : List UInt8) (field : Nat) : Part → List Nat
  | podVec nullable => if nullable then [] else [(vecDesc image field).start]
  | blockVec kind _ nullable =>
      if nullable then optionalVecBare (vecDropBare s kind (vecDesc image field)) (vecDesc image field)
      else vecDropBare s kind (vecDesc image field)
  | vecArray n elem _ =>
      reached (fun k => slotEnds (vecDesc image (field + k * 16))
          (elem.elim true fun e => dropEnds s e.1 (vecDesc image (field + k * 16)))) (fun k =>
        optionalVecBare (elem.elim [] fun e => vecDropBare s e.1 (vecDesc image (field + k * 16)))
          (vecDesc image (field + k * 16))) (List.range n)
  | _ => []

def Part.fieldCloneBare (image : List UInt8) (field : Nat) : Part → List Nat
  | blockVec kind _ _ => optionalVecBare (vecBare s kind (vecDesc image field)) (vecDesc image field)
  | vecArray n elem _ =>
      reached (fun k =>
          slotEnds (vecDesc image (field + k * 16)) (readable s (vecDesc image (field + k * 16)))) (fun k =>
        optionalVecBare (elem.elim [] fun e => vecBare s e.1 (vecDesc image (field + k * 16)))
          (vecDesc image (field + k * 16))) (List.range n)
  | _ => []

/-- A single reference, or the slots of an array of weak references. -/
def refBare (image : List UInt8) (field : Nat) : Part → List Nat
  | .block kind _ _ => if kind = .ref then [] else [fieldWord image field]
  | .blockArray n .weak _ _ => (List.range n).map fun k => fieldWord image (field + k * 8)
  | _ => []

def Part.variantDropBare (image : List UInt8) (field : Nat) : Part → List Nat
  | podVec _ => [(vecDesc image field).start]
  | blockVec kind _ _ => vecDropBare s kind (vecDesc image field)
  | blockArrayVec kind _ _ => vecDropBare s kind (vecDesc image field)
  | foreignVec kind _ _ =>
      if dropEnds s kind (vecDesc image field) then [(vecDesc image field).start] else []
  | part => refBare image field part

def Part.variantCloneBare (image : List UInt8) (field : Nat) : Part → List Nat
  | podVec _ => if readable s (vecDesc image field) then [(vecDesc image field).start] else []
  | blockVec kind _ _ => vecBare s kind (vecDesc image field)
  | blockArrayVec kind _ _ => vecBare s kind (vecDesc image field)
  | foreignVec kind _ _ => if pointersFound s kind (vecDesc image field) then [(vecDesc image field).start] else []
  | part => refBare image field part

end Bare

section Vectors

variable {s : Surroundings} {kind : OwnershipKind} {tag : EightCC} {desc : Range}
  {elem : Option (OwnershipKind × EightCC)} {nullable : Bool}

theorem inert_podVecDrop : (podVecDrop desc).Inert ↔ desc.start ≠ 0 := inert_touch

theorem inert_elements {walk : Nat → Trail} (hout : ∀ off, (walk off).out = .ok ())
    (h : ∀ off, (walk off).Inert ↔ kind = .ref ∨ off ≠ 0) :
    (reading (s.toVec desc) fun offs => (each walk offs).andThen (touch .range desc.start)).Inert ↔
      0 ∉ vecBare s kind desc := by
  rw [inert_reading, vecBare]
  match s.toVec desc with
  | .error e => simp
  | .ok offs =>
      have heach : (each walk offs).Inert ↔ 0 ∉ if kind = .ref then [] else offs := by
        by_cases hkind : kind = .ref
        · simp [inert_each_of fun off _ => (h off).2 (.inl hkind), hkind]
        · rw [inert_each_touch id hout fun off => by simp [h, hkind]]
          simp [hkind]
      have hends : (each walk offs).out = .ok () := out_each.2 fun off _ => hout off
      simp [inert_andThen, heach, hends, eq_comm]

theorem inert_vecDrop : (vecDrop s kind tag desc).Inert ↔ 0 ∉ vecDropBare s kind desc := by
  cases kind with
  | owned => exact inert_elements (fun _ => rfl) fun _ => by simp
  | strong => exact inert_elements (fun _ => rfl) fun _ => by simp
  | weak => exact inert_elements (fun _ => rfl) fun _ => by simp
  | ref => simp [vecDrop, refVecDrop, inert_podVecDrop, vecDropBare, eq_comm]

theorem inert_vecClone : (vecClone s kind tag desc).Inert ↔ 0 ∉ vecBare s kind desc :=
  inert_elements (fun _ => out_cloneRef) fun _ => inert_cloneRef

theorem inert_cloneDataInto :
    (cloneDataInto s desc).Inert ↔ 0 ∉ if readable s desc then [desc.start] else [] := by
  rw [cloneDataInto, inert_reading, readable]
  cases s.elements desc <;> simp [Except.isOk, Except.toBool, eq_comm]

theorem inert_optional {walk : Trail} {bare : List Nat} (h : walk.Inert ↔ 0 ∉ bare) :
    (if desc.start ≠ 0 then walk else done).Inert ↔ 0 ∉ optionalVecBare bare desc := by
  by_cases hstart : desc.start = 0 <;> simp [optionalVecBare, hstart, h]

theorem inert_of_guard {walk : Trail} (h : desc.start ≠ 0 → walk.Inert) :
    (if desc.start ≠ 0 then walk else done).Inert := by
  split
  case isTrue hstart => exact h hstart
  case isFalse => exact inert_done

theorem inert_vecDropStmt : (vecDropStmt nullable desc).Inert ↔ 0 ∉ if nullable then [] else [desc.start] := by
  cases nullable with
  | true =>
      have h : (vecDropStmt true desc).Inert := inert_of_guard inert_podVecDrop.2
      simpa using h
  | false => simp [vecDropStmt, inert_podVecDrop, eq_comm]

theorem inert_blockVecDropStmt : (blockVecDropStmt s kind tag nullable desc).Inert ↔
    0 ∉ if nullable then optionalVecBare (vecDropBare s kind desc) desc else vecDropBare s kind desc := by
  cases nullable with
  | true => exact inert_optional inert_vecDrop
  | false => exact inert_vecDrop

theorem inert_vecSlotDrop : (vecSlotDrop s elem desc).Inert ↔
    0 ∉ optionalVecBare (elem.elim [] fun e => vecDropBare s e.1 desc) desc := by
  match elem with
  | some (kind, tag) => exact inert_optional inert_vecDrop
  | none =>
      have h : (vecSlotDrop s none desc).Inert := inert_of_guard inert_podVecDrop.2
      simpa [optionalVecBare] using h

theorem inert_vecCloneStmt : (vecCloneStmt s elem desc).Inert ↔
    0 ∉ optionalVecBare (elem.elim [] fun e => vecBare s e.1 desc) desc := by
  match elem with
  | some (kind, tag) => exact inert_optional inert_vecClone
  | none =>
      have h : (vecCloneStmt s none desc).Inert := inert_of_guard fun hstart =>
        inert_reading.2 fun _ _ => inert_touch.2 hstart
      simpa [optionalVecBare] using h

end Vectors

/-! ### Parts -/

section Parts

variable {s : Surroundings} {image : List UInt8} {field start : Nat}

theorem inert_fieldDrop (part : Part) :
    (part.fieldDrop s start image field).Inert ↔ 0 ∉ part.fieldDropBare s image field := by
  have hinert {walk : Trail} (h : walk.Inert) : walk.Inert ↔ 0 ∉ ([] : List Nat) := by simp [h]
  cases part with
  | pod => exact hinert inert_done
  | block => exact hinert inert_scalarFieldDrop
  | embed => exact hinert (inert_reading.2 fun _ _ => inert_inplace _ _)
  | foreign => exact hinert inert_foreignElemDrop
  | blockArray => exact hinert (inert_eachWord fun _ h => inert_teardownRef.2 (.inr h))
  | embedArray => exact hinert (inert_reading.2 fun _ _ => inert_eachEmbed)
  | foreignArray => exact hinert (inert_eachPtr fun _ => inert_foreignElemDrop)
  | foreignTuple => exact hinert (inert_eachItem (fun _ _ => inert_foreignElemDrop) _ _)
  | podVec => exact inert_vecDropStmt
  | blockVec => exact inert_blockVecDropStmt
  | blockArrayVec kind =>
      refine hinert (inert_of_guard fun hstart => ?_)
      cases kind with
      | ref => exact inert_podVecDrop.2 hstart
      | owned | strong | weak =>
          exact inert_andThen.2 ⟨inert_eachElement fun _ h => inert_teardownRef.2 (.inr h),
            fun _ => inert_podVecDrop.2 hstart⟩
  | foreignVec kind =>
      refine hinert (inert_of_guard fun hstart => ?_)
      cases kind with
      | ref => exact inert_podVecDrop.2 hstart
      | owned | strong | weak =>
          exact inert_andThen.2 ⟨inert_reading.2 fun _ _ => inert_each_of fun _ _ => inert_foreignElemDrop,
            fun _ => inert_podVecDrop.2 hstart⟩
  | vecArray => exact inert_each _ _ (fun _ => out_vecSlotDrop) (fun _ => inert_vecSlotDrop) _

theorem inert_fieldClone (part : Part) :
    (part.fieldClone s start image field).Inert ↔ 0 ∉ part.fieldCloneBare s image field := by
  have hinert {walk : Trail} (h : walk.Inert) : walk.Inert ↔ 0 ∉ ([] : List Nat) := by simp [h]
  have hdata {desc : Range} (h : desc.start ≠ 0) : (cloneDataInto s desc).Inert :=
    inert_reading.2 fun _ _ => inert_touch.2 h
  cases part with
  | pod => exact hinert inert_done
  | block => exact hinert inert_cloneFieldStmt
  | embed => exact hinert (inert_reading.2 fun _ _ => inert_inplace _ _)
  | foreign => exact hinert inert_foreignElemClone
  | blockArray => exact hinert (inert_eachWord fun _ h => inert_cloneRef.2 (.inr h))
  | embedArray => exact hinert (inert_reading.2 fun _ _ => inert_eachEmbed)
  | foreignArray => exact hinert (inert_eachPtr fun _ => inert_foreignElemClone)
  | foreignTuple => exact hinert (inert_eachItem (fun _ _ => inert_foreignElemClone) _ _)
  | podVec => exact hinert (inert_of_guard hdata)
  | blockVec => exact inert_vecCloneStmt
  | blockArrayVec kind =>
      refine hinert (inert_of_guard fun hstart => ?_)
      cases kind with
      | ref => exact hdata hstart
      | owned | strong | weak =>
          exact inert_andThen.2 ⟨inert_eachElement fun _ h => inert_cloneRef.2 (.inr h), fun _ => hdata hstart⟩
  | foreignVec =>
      refine hinert (inert_of_guard fun hstart => inert_andThen.2 ⟨?_, fun _ => inert_touch.2 hstart⟩)
      exact inert_reading.2 fun _ _ => inert_each_of fun _ _ => inert_foreignElemClone
  | vecArray => exact inert_each _ _ (fun _ => out_vecCloneStmt) (fun _ => inert_vecCloneStmt) _

theorem inert_andThen_range {walk : Trail} {off : Nat} {ends : Bool} (h : walk.Inert)
    (hends : walk.out = .ok () ↔ ends) :
    (walk.andThen (touch .range off)).Inert ↔ 0 ∉ if ends then [off] else [] := by
  rw [inert_andThen, hends]
  cases ends <;> simp [h, eq_comm]

theorem inert_variantDrop (part : Part) :
    (part.variantDrop s start image field).Inert ↔ 0 ∉ part.variantDropBare s image field := by
  have hinert {walk : Trail} (h : walk.Inert) : walk.Inert ↔ 0 ∉ ([] : List Nat) := by simp [h]
  cases part with
  | pod => exact hinert inert_done
  | block kind => cases kind <;> simp [Part.variantDrop, Part.variantDropBare, refBare, teardownRef, eq_comm]
  | embed => exact hinert (inert_inplace _ _)
  | foreign => exact hinert inert_foreignElemDrop
  | blockArray n kind =>
      cases kind with
      | weak => exact inert_each_touch _ (fun _ => rfl) (fun _ => inert_touch) _
      | owned | strong | ref => exact hinert (inert_eachWord fun _ h => inert_teardownRef.2 (.inr h))
  | embedArray => exact hinert inert_eachEmbed
  | foreignArray => exact hinert (inert_eachPtr fun _ => inert_foreignElemDrop)
  | foreignTuple => exact hinert (inert_eachItem (fun _ _ => inert_foreignElemDrop) _ _)
  | podVec => simp [Part.variantDrop, Part.variantDropBare, inert_podVecDrop, eq_comm]
  | blockVec => exact inert_vecDrop
  | blockArrayVec => exact inert_vecDrop
  | foreignVec kind tag =>
      have helems : (reading (s.toPtrs (vecDesc image field)) (each (foreignElemDrop s kind tag))).Inert :=
        inert_reading.2 fun _ _ => inert_each_of fun _ _ => inert_foreignElemDrop
      have hends : (reading (s.toPtrs (vecDesc image field)) (each (foreignElemDrop s kind tag))).out = .ok () ↔
          readable s (vecDesc image field) := out_toPtrs fun _ => out_each.2 fun _ _ => out_foreignElemDrop
      cases kind with
      | ref =>
          refine inert_podVecDrop.trans ?_
          simp [Part.variantDropBare, dropEnds, eq_comm]
      | owned | strong | weak =>
          refine (inert_andThen_range helems hends).trans ?_
          simp [Part.variantDropBare, dropEnds]
  | vecArray => exact hinert inert_done

theorem inert_variantClone (part : Part) :
    (part.variantClone s start image field).Inert ↔ 0 ∉ part.variantCloneBare s image field := by
  have hinert {walk : Trail} (h : walk.Inert) : walk.Inert ↔ 0 ∉ ([] : List Nat) := by simp [h]
  cases part with
  | pod => exact hinert inert_done
  | block kind => cases kind <;> simp [Part.variantClone, Part.variantCloneBare, refBare, cloneRef, eq_comm]
  | embed => exact hinert (inert_inplace _ _)
  | foreign => exact hinert inert_foreignElemClone
  | blockArray n kind =>
      cases kind with
      | weak => exact inert_each_touch _ (fun _ => rfl) (fun _ => inert_touch) _
      | owned | strong | ref => exact hinert (inert_eachWord fun _ h => inert_cloneRef.2 (.inr h))
  | embedArray => exact hinert inert_eachEmbed
  | foreignArray => exact hinert (inert_eachPtr fun _ => inert_foreignElemClone)
  | foreignTuple => exact hinert (inert_eachItem (fun _ _ => inert_foreignElemClone) _ _)
  | podVec => exact inert_cloneDataInto
  | blockVec => exact inert_vecClone
  | blockArrayVec => exact inert_vecClone
  | foreignVec kind tag =>
      exact inert_andThen_range (inert_reading.2 fun _ _ => inert_each_of fun _ _ => inert_foreignElemClone)
        out_pointers
  | vecArray => exact hinert inert_done

end Parts

/-! ### Blocks -/

/-- The offsets that a body uses as they are, as far as it comes. -/
def Contents.bare (image : List UInt8) (ends : Nat → Part → Bool) (field variant : Nat → Part → List Nat) :
    Contents → List Nat
  | struct fields => reached (fun f => ends f.1 f.2) (fun f => field f.1 f.2) fields
  | enum disc width payload variants =>
      if ∀ v ∈ variants, v.2.hasArm = false then []
      else (variants.lookup (discriminant image disc width)).elim [] (variant payload)

theorem Contents.inert_walk {image : List UInt8} {fieldWalk variantWalk : Nat → Part → Trail}
    {ends : Nat → Part → Bool} {field variant : Nat → Part → List Nat}
    (hends : ∀ f p, (fieldWalk f p).out = .ok () ↔ ends f p) (hfield : ∀ f p, (fieldWalk f p).Inert ↔ 0 ∉ field f p)
    (hvariant : ∀ f p, (variantWalk f p).Inert ↔ 0 ∉ variant f p) (contents : Contents) :
    (contents.walk image fieldWalk variantWalk).Inert ↔ 0 ∉ contents.bare image ends field variant := by
  cases contents with
  | struct fields => exact inert_each _ _ (fun f => hends f.1 f.2) (fun f => hfield f.1 f.2) fields
  | enum disc width payload variants =>
      rw [walk, bare]
      split
      · simp
      · cases variants.lookup (discriminant image disc width) with
        | some part => exact hvariant payload part
        | none => simp

section Blocks

variable (s : Surroundings)

/-- The offsets that the teardown of a block uses as they are. -/
def GenType.dropBare (T : GenType) (start : Nat) : List Nat :=
  if T.contents.childless then []
  else (s.readOnDisk start T.size).toOption.elim [] fun image =>
    T.contents.bare image (fun field part => part.fieldDropEnds s start image field)
      (fun field part => part.fieldDropBare s image field) fun payload part => part.variantDropBare s image payload

/-- The offsets that the deep clone of a block uses as they are. -/
def GenType.cloneBare (T : GenType) (start : Nat) : List Nat :=
  if T.mode = .plain then (s.readOnDisk start T.size).toOption.elim [] fun image =>
    T.contents.bare image (fun field part => part.fieldCloneEnds s start image field)
      (fun field part => part.fieldCloneBare s image field) fun payload part => part.variantCloneBare s image payload
  else []

variable {s} {T : GenType} {start : Nat}

theorem GenType.inert_dropChildren : (T.dropChildren s start).Inert ↔ 0 ∉ T.dropBare s start := by
  rw [dropChildren, dropBare]
  split
  · simp
  · match s.readOnDisk start T.size with
    | .ok image =>
        change (T.contents.walk image _ _).Inert ↔ 0 ∉ T.contents.bare image _ _ _
        exact Contents.inert_walk (fun _ => out_fieldDrop) (fun _ => inert_fieldDrop) (fun _ => inert_variantDrop)
          T.contents
    | .error e => simp [reading, Except.toOption]

theorem GenType.inert_cloneChildren : (T.cloneChildren s start).Inert ↔ 0 ∉ T.cloneBare s start := by
  rw [cloneChildren, cloneBare]
  split
  · match s.readOnDisk start T.size with
    | .ok image =>
        change (T.contents.walk image _ _).Inert ↔ 0 ∉ T.contents.bare image _ _ _
        exact Contents.inert_walk (fun _ => out_fieldClone) (fun _ => inert_fieldClone) (fun _ => inert_variantClone)
          T.contents
    | .error e => simp [reading, Except.toOption]
  · simp

end Blocks

/-! ### Trees of blocks -/

/-- No walk from `root` does anything at an offset that a null slot gave: the teardown and the deep clone of
every block that they come to, and the interpreted ones, by any schema. -/
structure NullsInert (types : EightCC → GenType) (files : Nat → Surroundings) (root : BlockAt) : Prop where
  drop : ∀ b, Reaches (dropWalk types files) root b → (dropWalk types files b).Inert
  clone : ∀ b, Reaches (cloneWalk types files) root b → (cloneWalk types files b).Inert
  teardown : root.off ≠ 0 → ∀ reg ord, RttiWalk.Inert
    (RttiWalk.teardown reg (files root.file).attached (files root.file).data ord root.off).2
  cloneValue : ∀ reg ord allocate, RttiWalk.Inert
    (RttiWalk.cloneValue reg (files root.file).attached (files root.file).data allocate ord root.off).2

/-- An enum with one variant, which owns a block: a header, a discriminant of one byte, and the reference. -/
def ownedVariant : GenType where
  size := 25
  mode := .plain
  contents := .enum 16 1 17 [(0, .block .owned .zero false)]

def zeroFile : Surroundings where
  data := List.replicate 64 0
  attached := fun _ => false
  sizeOf := fun _ => 25
  elements := fun _ => .ok []

end SlotWalk

end BStackRaii
