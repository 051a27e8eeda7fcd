import BStackRaii.Proof.Schema
/-!
# Class variables in a record

`class_value_slot` walks a record up to the named field. On the record of a readable type it finds
the class variable, and writing another value of that width there gives the record of the type with
that value.
-/

namespace BStackRaii

namespace Shape

mutual

theorem Readable.mono : ∀ (s : Shape) {k l : Nat}, s.Readable k → k ≤ l → s.Readable l
  | s, 0, _, h, _ => by simp [Readable] at h
  | _, k + 1, 0, _, hle => absurd hle (by omega)
  | option inner, k + 1, l + 1, h, hle => Readable.mono inner h (by omega)
  | array _ inner, k + 1, l + 1, h, hle => Readable.mono inner h (by omega)
  | vec inner, k + 1, l + 1, h, hle => ⟨h.1, Readable.mono inner h.2 (by omega)⟩
  | tuple items, k + 1, l + 1, h, hle => ItemsReadable.mono items h (by omega)
  | classVar _ inner _, k + 1, l + 1, h, hle => Readable.mono inner h (by omega)
  | pod _, _ + 1, _ + 1, _, _ | owned _, _ + 1, _ + 1, _, _ | strong _, _ + 1, _ + 1, _, _
  | weak _, _ + 1, _ + 1, _, _ | ref _, _ + 1, _ + 1, _, _ | embed _, _ + 1, _ + 1, _, _
  | foreign _ _, _ + 1, _ + 1, _, _ => trivial

theorem ItemsReadable.mono : ∀ (items : List Shape) {k l : Nat}, ItemsReadable items k → k ≤ l →
    ItemsReadable items l
  | [], _, _, _, _ => trivial
  | s :: rest, _, _, h, hle => ⟨Readable.mono s h.1 hle, ItemsReadable.mono rest h.2 hle⟩

end

end Shape

theorem bne_toUInt8 (b : Bool) : (b.toUInt8 != 0) = b := by cases b <;> rfl

theorem Shape.class_slotted {mutable : Bool} {inner : Shape} {levels n : Nat}
    (h : inner.Readable levels) (hle : levels ≤ MAX_SHAPE_DEPTH) :
    Slotted 1 n (fun value => (Shape.classVar mutable inner value).encode) classValueWithinShape
      fun p => some (p, n, mutable) := by
  unfold classValueWithinShape
  refine Slotted.after (Coded.u8 0x20 1) ?_
  rw [if_neg (by decide)]
  refine Slotted.after (Coded.u8 mutable.toUInt8 1) ?_
  refine Slotted.after (inner.coded _ (h.mono inner hle)) ?_
  refine Slotted.congr (fun value =>
    Encoder.given (tryU32 n "class-variable value length" "4 GiB") >>= fun len =>
      Encoder.u32 len >>= fun _ => Encoder.emit ([] ++ value ++ [])) ?_ ?_
  · refine Slotted.given fun len hlen => Slotted.after (Coded.u32 len 1) ?_
    refine Slotted.here [] [] fun pre value hvalue post => ?_
    rw [List.nil_append, List.append_nil]
    refine ⟨⟨pre ++ value ++ post, pre.length⟩, ?_⟩
    show (if pre.length + len.toNat > (pre ++ value ++ post).length then _ else _ :
      Decoder RttiError (Option (Nat × Nat × Bool))) _ = _
    rw [if_neg, toNat_of_tryU32 hlen, bne_toUInt8]
    · rfl
    · rw [toNat_of_tryU32 hlen, ← hvalue, List.length_append, List.length_append]
      omega
  · intro value hvalue
    rw [List.nil_append, List.append_nil, hvalue]

theorem classValue_of_not_class {s : Shape} {levels : Nat} {pre bytes : List UInt8}
    (hs : ∀ mutable inner value, s ≠ .classVar mutable inner value)
    (h : Reads (Shape.decodeAt (levels + 1)) pre bytes s) :
    Finds classValueWithinShape pre bytes none := by
  intro post
  obtain ⟨tag, r, htag, hrest⟩ := stateT_bind_ok.mp (h post)
  have hne : tag ≠ 0x20 := by
    intro heq
    subst heq
    have hclass : Yields (Shape.decodeTagged (Shape.decodeAt levels) 0x20) fun s =>
        ∃ mutable inner value, s = .classVar mutable inner value :=
      (Yields.any _).bind fun _ _ => (Yields.any _).bind fun _ _ => (Yields.any _).bind fun _ _ =>
        (Yields.any _).bind fun _ _ => .pure ⟨_, _, _, rfl⟩
    obtain ⟨mutable, inner, value, heq⟩ := hclass _ _ _ hrest
    exact hs mutable inner value heq
  refine ⟨r, stateT_bind_ok.mpr ⟨tag, r, htag, ?_⟩⟩
  rw [if_pos hne]
  rfl

section Slots

variable {e : Encoder RttiError Unit} {α : Type} {d : Decoder RttiError α} {v : α} {count n : Nat}

theorem RttiField.slotted {f : RttiField} {mutable : Bool} {inner : Shape} {old : List UInt8}
    (h : f.Readable) (hf : f.shape = .classVar mutable inner old) (he : Coded 4 e d v) :
    Slotted 4 n (fun value => RttiField.encode { f with shape := .classVar mutable inner value }
        >>= fun _ => e)
      (classValueAmong f.name (count + 1)) fun p => some (p, n, mutable) := by
  have hinner : inner.Readable 63 := by
    rw [RttiField.Readable, hf] at h
    simpa only [MAX_SHAPE_DEPTH, Shape.Readable] using h
  refine Slotted.before ?_ he
  unfold RttiField.encode classValueAmong
  dsimp only
  refine Slotted.alone (Shape.class_slotted hinner (by decide)) fun front back hslot => ?_
  refine Slotted.given fun nameLen hname => ?_
  refine Slotted.congr (fun value => Encoder.given
      (tryU16 (front.length + n + back.length) "field shape encoding length" "65535 bytes")
        >>= fun shapeLen => Encoder.u32 f.offset >>= fun _ => Encoder.u16 nameLen >>= fun _ =>
      Encoder.u16 shapeLen >>= fun _ => Encoder.emit (utf8Bytes f.name) >>= fun _ =>
      Encoder.align 4 >>= fun _ => Encoder.emit (front ++ value ++ back) >>= fun _ =>
      Encoder.align 4) ?_ fun value hvalue => by
    rw [List.length_append, List.length_append, hvalue]
  refine Slotted.given fun shapeLen _ => ?_
  refine Slotted.after (Coded.u32 f.offset 4) (Slotted.after (Coded.u16 nameLen 4) ?_)
  refine Slotted.after (Coded.u16 shapeLen 4) ?_
  rw [toNat_of_tryU16 hname]
  refine Slotted.after (Coded.string f.name 4) ?_
  refine Slotted.after (Coded.aligned (by decide) (by decide)) ?_
  rw [if_pos rfl]
  exact (Slotted.here front back hslot).before (Coded.aligned (by decide) (by decide))

theorem RttiField.skipped {f : RttiField} {target : String} {e : List UInt8 → Encoder RttiError Unit}
    {answer : Nat → Option (Nat × Nat × Bool)} (h : f.Readable) (hf : f.name ≠ target)
    (he : Slotted 4 n e (classValueAmong target count) answer) :
    Slotted 4 n (fun value => f.encode >>= fun _ => e value)
      (classValueAmong target (count + 1)) answer := by
  unfold RttiField.encode classValueAmong
  simp only [bind_assoc]
  refine Slotted.given fun sw hsw => Slotted.given fun nameLen hname => ?_
  refine Slotted.given fun shapeLen _ => ?_
  refine Slotted.after (Coded.u32 f.offset 4) (Slotted.after (Coded.u16 nameLen 4) ?_)
  refine Slotted.after (Coded.u16 shapeLen 4) ?_
  rw [toNat_of_tryU16 hname]
  refine Slotted.after (Coded.string f.name 4) ?_
  refine Slotted.after (Coded.aligned (by decide) (by decide)) ?_
  rw [if_neg hf]
  refine Slotted.after ((f.shape.coded _ h).alone hsw) ?_
  exact Slotted.after (Coded.aligned (by decide) (by decide)) he

/-- A field of that name which is no class variable ends the search. -/
theorem RttiField.missed {f : RttiField} (h : f.Readable)
    (hf : ∀ mutable inner value, f.shape ≠ .classVar mutable inner value) (he : Coded 4 e d v) :
    Slotted 4 0 (fun _ => f.encode >>= fun _ => e) (classValueAmong f.name (count + 1))
      fun _ => none := by
  unfold RttiField.encode classValueAmong
  simp only [bind_assoc]
  refine Slotted.given fun sw hsw => Slotted.given fun nameLen hname => ?_
  refine Slotted.given fun shapeLen _ => ?_
  refine Slotted.after (Coded.u32 f.offset 4) (Slotted.after (Coded.u16 nameLen 4) ?_)
  refine Slotted.after (Coded.u16 shapeLen 4) ?_
  rw [toNat_of_tryU16 hname]
  refine Slotted.after (Coded.string f.name 4) ?_
  refine Slotted.after (Coded.aligned (by decide) (by decide)) ?_
  rw [if_pos rfl]
  refine Slotted.before (e := fun _ => Encoder.emit sw) ?_
    ((Coded.aligned (by decide) (by decide)).bind (f := fun _ => d) he)
  exact Slotted.none_here ((f.shape.coded _ h).alone hsw) fun pre bytes hreads =>
    classValue_of_not_class hf hreads

end Slots

/-! ### Class variables of a type -/

/-- Mutability and value of the class variable named `name`. The first field of that name
decides. -/
def classVariableAmong (name : String) : List RttiField → Option (Bool × List UInt8)
  | [] => none
  | f :: rest =>
      if f.name = name then
        match f.shape with
        | .classVar mutable _ value => some (mutable, value)
        | _ => none
      else classVariableAmong name rest

def withClassValueAmong (name : String) (value : List UInt8) : List RttiField → List RttiField
  | [] => []
  | f :: rest =>
      if f.name = name then
        match f.shape with
        | .classVar mutable inner _ => { f with shape := .classVar mutable inner value } :: rest
        | _ => f :: rest
      else f :: withClassValueAmong name value rest

def RttiType.classVariable (ty : RttiType) (name : String) : Option (Bool × List UInt8) :=
  match ty.body with
  | .struct fields => classVariableAmong name fields
  | .enum _ => none

/-- The type once its class variable `name` has taken `value`. -/
def RttiType.withClassValue (ty : RttiType) (name : String) (value : List UInt8) : RttiType :=
  match ty.body with
  | .struct fields => { ty with body := .struct (withClassValueAmong name value fields) }
  | .enum _ => ty

section ClassVariables

variable {name : String} {value : List UInt8} {fields : List RttiField} {ty : RttiType}

@[simp] theorem length_withClassValueAmong :
    (withClassValueAmong name value fields).length = fields.length := by
  induction fields with
  | nil => rfl
  | cons f rest ih =>
      unfold withClassValueAmong
      split
      · split <;> rfl
      · rw [List.length_cons, ih, List.length_cons]

theorem readable_withClassValueAmong (h : ∀ f ∈ fields, f.Readable) :
    ∀ f ∈ withClassValueAmong name value fields, f.Readable := by
  induction fields with
  | nil => exact h
  | cons f rest ih =>
      have hrest : ∀ g ∈ rest, g.Readable := fun g hg => h g (List.mem_cons_of_mem f hg)
      unfold withClassValueAmong
      split
      · split
        next mutable inner old hshape =>
          have hf := h f List.mem_cons_self
          rw [RttiField.Readable, hshape] at hf
          intro g hg
          cases hg with
          | head => exact hf
          | tail _ hg => exact hrest g hg
        next => exact h
      · intro g hg
        cases hg with
        | head => exact h _ List.mem_cons_self
        | tail _ hg => exact ih hrest g hg

/-- A class variable that is given the value it has, or that does not exist, changes nothing. -/
theorem withClassValueAmong_same
    (h : ∀ mutable old, classVariableAmong name fields = some (mutable, old) → value = old) :
    withClassValueAmong name value fields = fields := by
  induction fields with
  | nil => rfl
  | cons f rest ih =>
      unfold classVariableAmong at h
      unfold withClassValueAmong
      split at h
      · rename_i hname
        rw [if_pos hname]
        split
        next mutable inner old hshape =>
          rw [hshape] at h
          rw [h mutable old rfl, ← hshape]
        next => rfl
      · rename_i hname
        rw [if_neg hname, ih h]

theorem RttiType.withClassValue_same
    (h : ∀ mutable old, ty.classVariable name = some (mutable, old) → value = old) :
    ty.withClassValue name value = ty := by
  unfold withClassValue
  unfold classVariable at h
  cases hbody : ty.body with
  | struct fields =>
      rw [hbody] at h
      show { ty with body := .struct (withClassValueAmong name value fields) } = ty
      rw [withClassValueAmong_same h, ← hbody]
  | enum e => rfl

theorem RttiType.readable_withClassValue (h : ty.Readable) :
    (ty.withClassValue name value).Readable := by
  obtain ⟨hctrl, hbody⟩ := h
  unfold withClassValue
  split
  next fields heq =>
    rw [heq] at hbody
    exact ⟨hctrl, readable_withClassValueAmong hbody⟩
  next => exact ⟨hctrl, hbody⟩

@[simp] theorem RttiType.withClassValue_tag : (ty.withClassValue name value).tag = ty.tag := by
  unfold withClassValue
  split <;> rfl

/-- What the slot holds, nothing where there is none. -/
def slotValue (slot : Option (Bool × List UInt8)) : List UInt8 := slot.elim [] (·.2)

/-- What the search answers when the slot is at `p`. -/
def slotAnswer (slot : Option (Bool × List UInt8)) (p : Nat) : Option (Nat × Nat × Bool) :=
  slot.map fun s => (p, s.2.length, s.1)

theorem fields_slotted (h : ∀ f ∈ fields, f.Readable) :
    Slotted 4 (slotValue (classVariableAmong name fields)).length
      (fun value => Encoder.each RttiField.encode (withClassValueAmong name value fields))
      (classValueAmong name fields.length) (slotAnswer (classVariableAmong name fields)) := by
  induction fields with
  | nil => exact Slotted.none_here (Coded.pure 4 ()) fun pre bytes _ post => ⟨_, rfl⟩
  | cons f rest ih =>
      have hf := h f List.mem_cons_self
      have hrest : ∀ g ∈ rest, g.Readable := fun g hg => h g (List.mem_cons_of_mem f hg)
      have hcoded : Coded 4 (Encoder.each RttiField.encode rest) _ rest :=
        Coded.each fun g hg => g.coded (hrest g hg)
      unfold classVariableAmong withClassValueAmong
      by_cases hname : f.name = name
      · subst hname
        simp only [if_pos]
        split
        next mutable inner old hshape =>
          exact RttiField.slotted hf hshape hcoded
        next hshape => exact RttiField.missed hf hshape hcoded
      · simp only [if_neg hname]
        exact RttiField.skipped hf hname (ih hrest)

theorem RttiType.withClassValue_header (count : UInt16) :
    (ty.withClassValue name value).header count = ty.header count := by
  obtain ⟨tag, tyName, rc, weak, ctrlTag, size, body⟩ := ty
  cases body <;> rfl

theorem RttiType.withClassValue_count : (ty.withClassValue name value).count = ty.count := by
  obtain ⟨tag, tyName, rc, weak, ctrlTag, size, body⟩ := ty
  cases body with
  | struct fields =>
      show tryU16 (withClassValueAmong name value fields).length _ _ = _
      rw [length_withClassValueAmong]
      rfl
  | enum e => rfl

theorem RttiType.withClassValue_name : (ty.withClassValue name value).name = ty.name := by
  unfold withClassValue
  split <;> rfl

theorem body_slotted {count : UInt16} (h : ty.body.Readable) (hcount : ty.count = .ok count) :
    Slotted 8 (slotValue (ty.classVariable name)).length
      (fun value => (ty.withClassValue name value).encodeBody)
      (if (ty.header count).flags &&& FLAG_ENUM != 0 then pure none
        else classValueAmong name (ty.header count).count.toNat)
      (slotAnswer (ty.classVariable name)) := by
  have hflags : ((ty.header count).flags &&& FLAG_ENUM != 0) = ty.body.isEnum := ty.flag_enum
  have hbody := RttiType.body_coded h hcount
  rw [hflags]
  show Slotted 8 _ _ (if ty.body.isEnum = true then pure none
    else classValueAmong name count.toNat) _
  unfold RttiType.classVariable RttiType.withClassValue
  cases heq : ty.body with
  | struct fields =>
      rw [heq] at h
      rw [RttiType.count, heq] at hcount
      rw [toNat_of_tryU16 hcount]
      exact (fields_slotted h).weaken (by decide)
  | enum e =>
      exact Slotted.none_here hbody fun pre bytes _ post => ⟨_, rfl⟩

theorem RttiType.slotted (h : ty.Readable) :
    Slotted 8 (slotValue (ty.classVariable name)).length
      (fun value => (ty.withClassValue name value).encode) (classValueIn name)
      (slotAnswer (ty.classVariable name)) := by
  unfold RttiType.encode classValueIn
  simp only [withClassValue_header, withClassValue_count, withClassValue_name]
  refine Slotted.given fun count hcount => Slotted.given fun nameLen hname => ?_
  refine Slotted.after ((ty.header count).coded (toNat_of_tryU16 hname)) ?_
  exact body_slotted h.body hcount

/-- The record of a readable type is bytes around the value of the class variable, and the type with
another value of that width is encoded by the same bytes around the new value. -/
theorem classValueSlot_spec {body : List UInt8} (h : ty.Readable) (hbody : encodeType ty = .ok body)
    (name : String) :
    ∃ front back, body = front ++ slotValue (ty.classVariable name) ++ back ∧
      ∀ value, value.length = (slotValue (ty.classVariable name)).length →
        encodeType (ty.withClassValue name value) = .ok (front ++ value ++ back) ∧
        classValueSlot (front ++ value ++ back) name
          = .ok (slotAnswer (ty.classVariable name) front.length) := by
  have hsame : ty.withClassValue name (slotValue (ty.classVariable name)) = ty := by
    apply RttiType.withClassValue_same
    intro mutable old hvar
    rw [hvar]
    rfl
  have hrun : (ty.withClassValue name (slotValue (ty.classVariable name))).encode []
      = .ok ((), body) := by
    rw [hsame]
    exact Encoder.alone_ok.mp hbody
  obtain ⟨front, back, hw, hall⟩ := RttiType.slotted h [] body _ rfl hrun
  refine ⟨front, back, hw, fun value hvalue => ?_⟩
  obtain ⟨hwrites, hfinds⟩ := hall [] rfl value hvalue
  refine ⟨Encoder.alone_ok.mpr hwrites, ?_⟩
  rw [List.length_nil, Nat.zero_add] at hfinds
  exact hfinds.run

end ClassVariables

end BStackRaii
