import BStackRaii.Logic.Lockstep
import BStackRaii.Proof.Registry
/-!
# The class variable of any record

`class_value_slot` walks a record beside `decode_type`, over whatever bytes that accepts: a `bool` byte other than
0 or 1, padding that is not zero, flags that no encoder sets. On each of them the two move alike up to the named
field, so the slot is where the decoder reads the value.
-/

namespace BStackRaii

/-! ### The decoders are local -/

namespace Local

theorem u8 : Local (need Reader.u8) := word _ 1 _

theorem u16 : Local (need Reader.u16) := word _ 2 _

theorem u32 : Local (need Reader.u32) := word _ 4 _

theorem u64 : Local (need Reader.u64) := word _ 8 _

theorem i64 : Local (need Reader.i64) := word _ 8 _

theorem eightcc : Local (need Reader.eightcc) := word _ 8 _

theorem bytes (k : Nat) : Local (need (Reader.take k)) := take k _

theorem aligned {a : Nat} (ha : 0 < a) : Local (align a) := skipPad ha _

theorem string (k : Nat) : Local (string k) := by
  apply (bytes k).bind
  intro bs
  cases fromUtf8 bs with
  | none => exact throw _
  | some s => exact pure s

end Local

namespace Shape

theorem decodeAt_local (levels : Nat) : Local (decodeAt levels) := by
  induction levels with
  | zero => exact Local.throw _
  | succ levels ih =>
      apply Local.u8.bind
      intro tag
      unfold decodeTagged
      split
      · exact Local.u32.bind fun width => Local.pure _
      · exact Local.eightcc.bind fun cc => Local.pure _
      · exact Local.eightcc.bind fun cc => Local.pure _
      · exact Local.eightcc.bind fun cc => Local.pure _
      · exact Local.eightcc.bind fun cc => Local.pure _
      · exact Local.eightcc.bind fun cc => Local.pure _
      · refine Local.eightcc.bind fun cc => Local.u8.bind fun kb => ?_
        cases OwnershipKind.fromU8 kb with
        | none => exact Local.throw _
        | some kind => exact Local.pure _
      · exact ih.bind fun s => Local.pure _
      · exact Local.u32.bind fun n => ih.bind fun s => Local.pure _
      · refine ih.bind fun s => ?_
        split
        · exact Local.pure _
        · exact Local.throw _
      · exact Local.u8.bind fun k => (ih.times _).bind fun items => Local.pure _
      · refine Local.u8.bind fun flag => ih.bind fun s => Local.u32.bind fun valueLen => ?_
        exact (Local.bytes _).bind fun value => Local.pure _
      · exact Local.throw _

/-- What decodes within fewer levels decodes within more. -/
theorem decodeAt_extends {k l : Nat} (hle : k ≤ l) : Extends (decodeAt k) (decodeAt l) := by
  induction k generalizing l with
  | zero => exact Extends.throw _
  | succ k ih =>
      obtain ⟨l, rfl⟩ := Nat.exists_eq_add_of_le' (Nat.lt_of_lt_of_le (Nat.succ_pos k) hle)
      have hinner : Extends (decodeAt k) (decodeAt l) := ih (Nat.le_of_succ_le_succ hle)
      apply (Extends.refl _).bind
      intro tag
      unfold decodeTagged
      split
      · exact Extends.refl _
      · exact Extends.refl _
      · exact Extends.refl _
      · exact Extends.refl _
      · exact Extends.refl _
      · exact Extends.refl _
      · exact Extends.refl _
      · exact hinner.bind fun s => Extends.refl _
      · exact (Extends.refl _).bind fun n => hinner.bind fun s => Extends.refl _
      · exact hinner.bind fun s => Extends.refl _
      · exact (Extends.refl _).bind fun k => (hinner.times _).bind fun items => Extends.refl _
      · exact (Extends.refl _).bind fun flag => hinner.bind fun s => Extends.refl _
      · exact Extends.refl _

end Shape

/-- The length of a shape, measured as `decode` does, and the padding after it. -/
def closeField (shapeStart : Nat) (shapeLen : UInt16) : Decoder RttiError Unit := do
  let shapeEnd ← Decoder.position
  if shapeEnd - shapeStart ≠ shapeLen.toNat then
    throw ⟨.shapeLenMismatch, "RTTI field shape length mismatch"⟩
  else align 4

theorem closeField_local (shapeStart : Nat) (shapeLen : UInt16) : Local (closeField shapeStart shapeLen) := by
  refine Local.position.bind fun shapeEnd => ?_
  split
  · exact Local.throw _
  · exact Local.aligned (by decide)

theorem RttiField.decode_eq : RttiField.decode = (do
    let offset ← need Reader.u32
    let nameLen ← need Reader.u16
    let shapeLen ← need Reader.u16
    let name ← string nameLen.toNat
    align 4
    let shapeStart ← Decoder.position
    let shape ← Shape.decode
    closeField shapeStart shapeLen
    pure { name, offset, shape }) := by
  unfold RttiField.decode closeField
  congr 1
  funext offset
  congr 1
  funext nameLen
  congr 1
  funext shapeLen
  congr 1
  funext name
  congr 1
  funext _
  congr 1
  funext shapeStart
  congr 1
  funext shape
  rw [bind_assoc]
  congr 1
  funext shapeEnd
  split <;> rfl

theorem RttiField.decode_local : Local RttiField.decode := by
  rw [RttiField.decode_eq]
  refine Local.u32.bind fun offset => Local.u16.bind fun nameLen => Local.u16.bind fun shapeLen => ?_
  refine (Local.string _).bind fun name =>
    (Local.aligned (by decide)).bind fun _ => Local.position.bind fun shapeStart => ?_
  exact (Shape.decodeAt_local _).bind fun shape => (closeField_local _ _).bind fun _ => Local.pure _

theorem RttiVariant.decode_local : Local RttiVariant.decode := by
  refine (Local.aligned (by decide)).bind fun _ => Local.i64.bind fun disc => Local.u16.bind fun nameLen => ?_
  refine Local.u16.bind fun count => Local.u32.bind fun _ => (Local.string _).bind fun name => ?_
  refine (Local.aligned (by decide)).bind fun _ => ?_
  exact (RttiField.decode_local.times _).bind fun fields => Local.pure _

theorem TypeHeader.decode_local : Local TypeHeader.decode := by
  refine Local.u8.bind fun flags => Local.u8.bind fun discWidth => Local.u16.bind fun nameLen => ?_
  refine Local.u16.bind fun count => Local.u16.bind fun discOff => Local.u16.bind fun payloadOff => ?_
  refine Local.u64.bind fun size => Local.eightcc.bind fun ctrl => (Local.string _).bind fun name => ?_
  exact (Local.aligned (by decide)).bind fun _ => Local.pure _

theorem RttiBody.decode_local (h : TypeHeader) : Local (RttiBody.decode h) := by
  unfold RttiBody.decode
  split
  · split
    · exact Local.throw _
    · split
      · exact Local.throw _
      · exact (RttiVariant.decode_local.times _).bind fun variants => Local.pure _
  · exact (RttiField.decode_local.times _).bind fun fields => Local.pure _

/-! ### The search moves as the decoder does -/

variable {r r' : Reader}

theorem value_spot {n : Nat} {m : Bool} {value : List UInt8} {β : Type} (make : List UInt8 → β)
    (hin : r.pos ≤ r.buf.length) (hrun : need (Reader.take n) r = .ok (value, r')) :
    value.length = n ∧ Spot (need (Reader.take n) >>= fun value => pure (make value)) (do
      let pos ← Decoder.position
      let size ← Decoder.size
      if pos + n > size then
        throw ⟨.classVar, "RTTI class variable: value length exceeds the record body"⟩
      else pure (some (pos, n, m)) : Decoder RttiError (Option (Nat × Nat × Bool))) make value
      (fun p => some (p, n, m)) r r' := by
  obtain ⟨pre, bytes, post, rfl, rfl, hreads⟩ := Local.bytes n r value r' hin hrun
  have hself := hreads pre rfl []
  rw [need, Decoder.ofOption] at hself
  have hread : Reader.take n ⟨pre ++ bytes ++ [], pre.length⟩ =
    some (value, ⟨pre ++ bytes ++ [], (pre ++ bytes).length⟩) := by
    split at hself
    · rename_i hp
      cases hself
      exact hp
    · cases hself
  obtain ⟨hend, hlen, hpos⟩ := Reader.take_inside hread
  have hcount : bytes.length = n := by
    have hstop := congrArg Reader.pos hpos
    simp only [List.length_append] at hstop
    omega
  have hsame : bytes = value := by
    rw [Reader.take, if_pos hend] at hread
    have hvalue := congrArg Prod.fst (Option.some.inj hread)
    rw [List.append_nil, List.drop_left, ← hcount, List.take_length] at hvalue
    exact hvalue
  subst hsame
  refine ⟨hlen, pre, [], [], post, by simp, by simp, fun pre' value hpre hvalue => ?_⟩
  rw [List.nil_append, List.append_nil]
  constructor
  · have hvalue' : Reads (need (Reader.take n) : Decoder RttiError _) pre' value value := by
      rw [← hcount, ← hvalue]
      exact Reads.ofOption (Fetches.take value) _ pre'
    have hlast := hvalue'.bind (f := fun value => pure (make value)) (Reads.pure _ (make value))
    rwa [List.append_nil] at hlast
  · intro post'
    refine ⟨⟨pre' ++ value ++ post', pre'.length⟩, ?_⟩
    show (if pre'.length + n > (pre' ++ value ++ post').length then _ else _ :
      Decoder RttiError (Option (Nat × Nat × Bool))) _ = _
    rw [if_neg]
    · rfl
    · rw [List.length_append, List.length_append]
      omega

/-- The shape of a class variable, and its search. -/
theorem Shape.class_spot {mutable : Bool} {inner : Shape} {old : List UInt8} (hin : r.pos ≤ r.buf.length)
    (hrun : Shape.decode r = .ok (.classVar mutable inner old, r')) :
    Spot Shape.decode classValueWithinShape (Shape.classVar mutable inner) old
      (fun p => some (p, old.length, mutable)) r r' := by
  obtain ⟨tag, r₁, htag, hrest⟩ := stateT_bind_ok.mp hrun
  obtain rfl : tag = 0x20 := by
    by_contra hne
    have hother : Yields (Shape.decodeTagged (Shape.decodeAt 63) tag) fun s =>
        ∀ mutable inner value, s ≠ .classVar mutable inner value := by
      unfold Shape.decodeTagged
      split
      · exact (Yields.any _).bind fun _ _ => .pure nofun
      · exact (Yields.any _).bind fun _ _ => .pure nofun
      · exact (Yields.any _).bind fun _ _ => .pure nofun
      · exact (Yields.any _).bind fun _ _ => .pure nofun
      · exact (Yields.any _).bind fun _ _ => .pure nofun
      · exact (Yields.any _).bind fun _ _ => .pure nofun
      · refine (Yields.any _).bind fun _ _ => (Yields.any _).bind fun kb _ => ?_
        cases OwnershipKind.fromU8 kb with
        | none => exact .throw _
        | some kind => exact .pure nofun
      · exact (Yields.any _).bind fun _ _ => .pure nofun
      · exact (Yields.any _).bind fun _ _ => (Yields.any _).bind fun _ _ => .pure nofun
      · refine (Yields.any _).bind fun _ _ => ?_
        split
        · exact .pure nofun
        · exact .throw _
      · exact (Yields.any _).bind fun _ _ => (Yields.any _).bind fun _ _ => .pure nofun
      · exact absurd rfl hne
      · exact .throw _
    exact hother _ _ _ hrest mutable inner old rfl
  have htook := Local.u8 r 0x20 r₁ hin htag
  unfold classValueWithinShape
  refine Spot.after htook (Extends.refl _) ?_
  rw [if_neg (by decide)]
  obtain ⟨flag, r₂, hflag, hrest⟩ := stateT_bind_ok.mp hrest
  have htook₂ := Local.u8 r₁ flag r₂ htook.inside hflag
  refine Spot.after htook₂ (Extends.refl _) ?_
  obtain ⟨s, r₃, hs, hrest⟩ := stateT_bind_ok.mp hrest
  have htook₃ := Shape.decodeAt_local 63 r₂ s r₃ htook₂.inside hs
  refine Spot.after htook₃ (Shape.decodeAt_extends (by decide)) ?_
  obtain ⟨valueLen, r₄, hlen, hrest⟩ := stateT_bind_ok.mp hrest
  have htook₄ := Local.u32 r₃ valueLen r₄ htook₃.inside hlen
  refine Spot.after htook₄ (Extends.refl _) ?_
  obtain ⟨value, r₅, hvalue, hrest⟩ := stateT_bind_ok.mp hrest
  cases hrest
  obtain ⟨hcount, hspot⟩ := value_spot (m := flag != 0) (Shape.classVar (flag != 0) inner) htook₄.inside hvalue
  rw [hcount]
  exact hspot

section Fields

variable {name : String} {value : List UInt8} {f : RttiField} {rest : List RttiField}

theorem classVariableAmong_ne (h : f.name ≠ name) :
    classVariableAmong name (f :: rest) = classVariableAmong name rest :=
  if_neg h

theorem withClassValueAmong_ne (h : f.name ≠ name) :
    withClassValueAmong name value (f :: rest) = f :: withClassValueAmong name value rest := if_neg h

theorem named_spot {offset : UInt32} {shapeLen : UInt16} {start count : Nat} {shape : Shape} {xs : List RttiField}
    {t t' : Reader}
    (hin : r.pos ≤ r.buf.length) (hshape : Shape.decode r = .ok (shape, t))
    (hclose : closeField start shapeLen t = .ok ((), t'))
    (hxs : RttiField.decode.times count t' = .ok (xs, r')) :
    Spot (do
        let shape ← Shape.decode
        closeField start shapeLen
        let xs ← RttiField.decode.times count
        pure (RttiField.mk name offset shape :: xs)) classValueWithinShape
      (fun value => withClassValueAmong name value (⟨name, offset, shape⟩ :: xs))
      (slotValue (classVariableAmong name (⟨name, offset, shape⟩ :: xs)))
      (slotAnswer (classVariableAmong name (⟨name, offset, shape⟩ :: xs))) r r' := by
  have hread := Shape.decodeAt_local MAX_SHAPE_DEPTH r shape t hin hshape
  have hclosed := closeField_local start shapeLen t () t' hread.inside hclose
  have hrest := hclosed.bind (f := fun _ => RttiField.decode.times count)
    (RttiField.decode_local.times count t' xs r' hclosed.inside hxs)
  have hjoin : ∀ shape, (closeField start shapeLen >>= fun _ => RttiField.decode.times count >>= fun xs =>
      pure (RttiField.mk name offset shape :: xs)) =
      (closeField start shapeLen >>= fun _ => RttiField.decode.times count) >>= fun xs =>
        pure (RttiField.mk name offset shape :: xs) := fun shape => (bind_assoc ..).symm
  unfold classVariableAmong withClassValueAmong
  simp only [if_true]
  by_cases hclass : ∃ mutable inner old, shape = .classVar mutable inner old
  · obtain ⟨mutable, inner, old, rfl⟩ := hclass
    exact (Shape.class_spot hin hshape).before hrest hjoin
  · have hother : ∀ mutable inner old, shape ≠ .classVar mutable inner old := fun mutable inner old h =>
      hclass ⟨mutable, inner, old, h⟩
    have hnone : Spot Shape.decode classValueWithinShape (fun _ => shape) [] (fun _ => none) r t :=
      Spot.none_here hread fun pre bytes h => classValue_of_not_class hother h
    have hspot := hnone.before hrest hjoin
    cases shape with
    | classVar mutable inner old => exact absurd rfl (hother mutable inner old)
    | _ => exact hspot

/-- The fields of a struct, and the search among them. -/
theorem fields_spot {count : Nat} {fields : List RttiField} (hin : r.pos ≤ r.buf.length)
    (hrun : RttiField.decode.times count r = .ok (fields, r')) :
    Spot (RttiField.decode.times count) (classValueAmong name count)
    (fun value => withClassValueAmong name value fields)
      (slotValue (classVariableAmong name fields)) (slotAnswer (classVariableAmong name fields)) r r' := by
  induction count generalizing r fields with
  | zero =>
      cases hrun
      exact Spot.none_here (Took.pure [] hin) fun pre bytes _ post => ⟨_, rfl⟩
  | succ count ih =>
      rw [Decoder.times, RttiField.decode_eq] at hrun ⊢
      simp only [bind_assoc, pure_bind] at hrun ⊢
      rw [← RttiField.decode_eq] at hrun ⊢
      unfold classValueAmong
      obtain ⟨offset, r₁, hoffset, hrun⟩ := stateT_bind_ok.mp hrun
      have htook := Local.u32 r offset r₁ hin hoffset
      refine Spot.after htook (Extends.refl _) ?_
      obtain ⟨nameLen, r₂, hnameLen, hrun⟩ := stateT_bind_ok.mp hrun
      have htook := Local.u16 r₁ nameLen r₂ htook.inside hnameLen
      refine Spot.after htook (Extends.refl _) ?_
      obtain ⟨shapeLen, r₃, hshapeLen, hrun⟩ := stateT_bind_ok.mp hrun
      have htook := Local.u16 r₂ shapeLen r₃ htook.inside hshapeLen
      refine Spot.after htook (Extends.refl _) ?_
      obtain ⟨fname, r₄, hfname, hrun⟩ := stateT_bind_ok.mp hrun
      have htook := Local.string _ r₃ fname r₄ htook.inside hfname
      refine Spot.after htook (Extends.refl _) ?_
      obtain ⟨_, r₅, hpad, hrun⟩ := stateT_bind_ok.mp hrun
      have htook := Local.aligned (by decide) r₄ () r₅ htook.inside hpad
      refine Spot.after htook (Extends.refl _) (Spot.position ?_)
      obtain ⟨start, r₆, hstart, hrun⟩ := stateT_bind_ok.mp hrun
      cases hstart
      obtain ⟨shape, r₇, hshape, hrun⟩ := stateT_bind_ok.mp hrun
      obtain ⟨_, r₈, hclose, hrun⟩ := stateT_bind_ok.mp hrun
      obtain ⟨xs, r₉, hxs, hrun⟩ := stateT_bind_ok.mp hrun
      cases hrun
      by_cases hname : fname = name
      · rw [if_pos hname]
        subst hname
        exact named_spot htook.inside hshape hclose hxs
      · have hfield : (RttiField.mk fname offset shape).name ≠ name := hname
        rw [if_neg hname]
        simp only [classVariableAmong_ne hfield, withClassValueAmong_ne hfield]
        have hread := Shape.decodeAt_local MAX_SHAPE_DEPTH r₅ shape r₇ htook.inside hshape
        refine Spot.after hread (Extends.refl _) ?_
        -- the search does not check the length that the decoder checks
        unfold closeField at hclose ⊢
        simp only [bind_assoc]
        obtain ⟨stop, r₁₀, hstop, hclose⟩ := stateT_bind_ok.mp hclose
        cases hstop
        refine Spot.position ?_
        split at hclose
        · cases hclose
        · rename_i hlen
          rw [if_neg hlen]
          have hpadded := Local.aligned (by decide) r₇ () r₈ hread.inside hclose
          refine Spot.after hpadded (Extends.refl _) ?_
          exact (ih hpadded.inside hxs).map fun xs => RttiField.mk fname offset shape :: xs

end Fields

/-- A record that decodes, and the search in it. -/
theorem RttiType.decode_spot {tag : EightCC} {ty : RttiType} {name : String} (hin : r.pos ≤ r.buf.length)
    (hrun : RttiType.decode tag r = .ok (ty, r')) :
    Spot (RttiType.decode tag) (classValueIn name) (fun value => ty.withClassValue name value)
      (slotValue (ty.classVariable name)) (slotAnswer (ty.classVariable name)) r r' := by
  unfold RttiType.decode classValueIn
  obtain ⟨h, r₁, hheader, hrun⟩ := stateT_bind_ok.mp hrun
  have htook := TypeHeader.decode_local r h r₁ hin hheader
  refine Spot.after htook (Extends.refl _) ?_
  obtain ⟨body, r₂, hbody, hrun⟩ := stateT_bind_ok.mp hrun
  cases hrun
  by_cases henum : (h.flags &&& FLAG_ENUM != 0) = true
  · rw [if_pos henum]
    have hread := RttiBody.decode_local h r₁ body r' htook.inside hbody
    have hisEnum : ∃ e, body = .enum e := by
      rw [RttiBody.decode, if_pos henum] at hbody
      split at hbody
      · cases hbody
      · split at hbody
        · cases hbody
        · obtain ⟨variants, r₃, -, hbody⟩ := stateT_bind_ok.mp hbody
          cases hbody
          exact ⟨_, rfl⟩
    obtain ⟨e, rfl⟩ := hisEnum
    exact (Spot.none_here hread fun pre bytes _ post => ⟨_, rfl⟩).map _
  · rw [if_neg henum]
    rw [RttiBody.decode, if_neg henum] at hbody ⊢
    obtain ⟨fields, r₃, hfields, hbody⟩ := stateT_bind_ok.mp hbody
    cases hbody
    exact ((fields_spot htook.inside hfields).map RttiBody.struct).map _

/-- The body of a record that decodes is bytes around the value of the class variable. With other bytes of that width
there it decodes to the type with that value, and the search finds the slot. -/
theorem decodeType_slot {tag : EightCC} {body : List UInt8} {ty : RttiType} (h : decodeType tag body = .ok ty)
    (name : String) : ∃ front back, body = front ++ slotValue (ty.classVariable name) ++ back ∧
      ∀ value, value.length = (slotValue (ty.classVariable name)).length →
        decodeType tag (front ++ value ++ back) = .ok (ty.withClassValue name value) ∧
        classValueSlot (front ++ value ++ back) name = .ok (slotAnswer (ty.classVariable name) front.length) := by
  rw [decodeType, Decoder.run] at h
  cases hrun : RttiType.decode tag ⟨body, 0⟩ with
  | error e =>
      rw [hrun] at h
      cases h
  | ok p =>
      rw [hrun] at h
      cases h
      exact (RttiType.decode_spot (Nat.zero_le _) hrun).run

/-- The search answers what the decoder reads. -/
def SlotExact (body : List UInt8) (ty : RttiType) (name : String) : Prop :=
  match ty.classVariable name with
  | none => classValueSlot body name = .ok none
  | some (mutable, value) => ∃ pos, classValueSlot body name = .ok (some (pos, value.length, mutable)) ∧
      pos + value.length ≤ body.length ∧ (body.drop pos).take value.length = value

theorem slotExact {tag : EightCC} {body : List UInt8} {ty : RttiType} (h : decodeType tag body = .ok ty)
    (name : String) : SlotExact body ty name := by
  obtain ⟨front, back, hbody, hall⟩ := decodeType_slot h name
  obtain ⟨-, hslot⟩ := hall (slotValue (ty.classVariable name)) rfl
  rw [← hbody] at hslot
  unfold SlotExact
  cases hvar : ty.classVariable name with
  | none =>
      rw [hvar] at hslot
      exact hslot
  | some s =>
      rw [hvar] at hslot hbody
      refine ⟨front.length, hslot, ?_, ?_⟩
      · rw [hbody]
        simp [slotValue]
      · rw [hbody, List.append_assoc, List.drop_left]
        exact List.take_left

/-! ### What does not change -/

section Unchanged

variable {name other : String} {value old : List UInt8} {fields : List RttiField} {ty : RttiType}

theorem classVariableAmong_other (h : other ≠ name) :
    classVariableAmong other (withClassValueAmong name value fields) = classVariableAmong other fields := by
  induction fields with
  | nil => rfl
  | cons f rest ih =>
      by_cases hname : f.name = name
      · have hne : f.name ≠ other := fun heq => h (heq.symm.trans hname)
        unfold withClassValueAmong
        rw [if_pos hname]
        split
        · rename_i mutable inner old hshape
          have hset : ({ f with shape := .classVar mutable inner value } : RttiField).name ≠ other := hne
          rw [classVariableAmong_ne hset, classVariableAmong_ne hne]
        · rfl
      · rw [withClassValueAmong_ne hname, classVariableAmong, classVariableAmong, ih]

theorem RttiType.classVariable_other (h : other ≠ name) :
    (ty.withClassValue name value).classVariable other = ty.classVariable other := by
  unfold RttiType.withClassValue RttiType.classVariable
  cases hbody : ty.body with
  | struct fields => exact classVariableAmong_other h
  | enum e => rw [hbody]

theorem classVariableAmong_set {mutable : Bool} (h : classVariableAmong name fields = some (mutable, old)) :
    classVariableAmong name (withClassValueAmong name value fields) = some (mutable, value) := by
  induction fields with
  | nil => cases h
  | cons f rest ih =>
      by_cases hname : f.name = name
      · rw [classVariableAmong, if_pos hname] at h
        rw [withClassValueAmong, if_pos hname]
        split at h
        · rename_i hshape
          cases h
          exact if_pos hname
        · cases h
      · rw [classVariableAmong_ne hname] at h
        rw [withClassValueAmong_ne hname, classVariableAmong_ne hname]
        exact ih h

theorem RttiType.classVariable_set {mutable : Bool} (h : ty.classVariable name = some (mutable, old)) :
    (ty.withClassValue name value).classVariable name = some (mutable, value) := by
  unfold RttiType.classVariable at h
  unfold RttiType.withClassValue RttiType.classVariable
  cases hbody : ty.body with
  | struct fields =>
      rw [hbody] at h
      exact classVariableAmong_set h
  | enum e =>
      rw [hbody] at h
      cases h

theorem strip_withClassValueAmong (h : classVariableAmong name fields = some (true, old)) :
    (withClassValueAmong name value fields).map RttiField.strip = fields.map RttiField.strip := by
  induction fields with
  | nil => rfl
  | cons f rest ih =>
      by_cases hname : f.name = name
      · rw [classVariableAmong, if_pos hname] at h
        rw [withClassValueAmong, if_pos hname]
        split at h
        · rename_i hshape
          cases h
          simp only [hshape, List.map_cons, RttiField.strip, Shape.strip, if_true]
        · cases h
      · rw [classVariableAmong_ne hname] at h
        rw [withClassValueAmong_ne hname, List.map_cons, List.map_cons, ih h]

/-- Another value of a mutable class variable is no other layout. -/
theorem RttiType.layoutsMatch_withClassValue (h : ty.classVariable name = some (true, old)) :
    layoutsMatch ty (ty.withClassValue name value) = true := by
  rw [layoutsMatch, beq_iff_eq]
  unfold RttiType.classVariable at h
  unfold RttiType.withClassValue RttiType.strip
  cases hbody : ty.body with
  | struct fields =>
      rw [hbody] at h
      simp only [strip_withClassValueAmong h]
  | enum e =>
      rw [hbody] at h
      cases h

end Unchanged

/-! ### The slot lies in the record -/

/-- The search answers no slot outside its buffer. -/
def Bounded (s : Decoder RttiError (Option (Nat × Nat × Bool))) : Prop :=
  ∀ r p n m r', r.pos ≤ r.buf.length → s r = .ok (some (p, n, m), r') → p + n ≤ r.buf.length

namespace Bounded

theorem none : Bounded (pure none) := by
  intro r p n m r' hin hrun
  cases hrun

theorem bind {γ : Type} {c : Decoder RttiError γ} {g : γ → Decoder RttiError (Option (Nat × Nat × Bool))}
    (hc : Local c) (hg : ∀ x, Bounded (g x)) : Bounded (c >>= g) := by
  intro r p n m r' hin hrun
  obtain ⟨x, t, hx, hrest⟩ := stateT_bind_ok.mp hrun
  have htook := hc r x t hin hx
  have hbound := hg x t p n m r' htook.inside hrest
  obtain ⟨pre, bytes, post, rfl, rfl, -⟩ := htook
  exact hbound

end Bounded

theorem classValueWithinShape_bounded : Bounded classValueWithinShape := by
  refine Bounded.bind Local.u8 fun tag => ?_
  split
  · exact Bounded.none
  · refine Bounded.bind Local.u8 fun flag => Bounded.bind (Shape.decodeAt_local _) fun s => ?_
    refine Bounded.bind Local.u32 fun valueLen => Bounded.bind Local.position fun pos => ?_
    intro r p n m r' hin hrun
    obtain ⟨size, t, hsize, hrest⟩ := stateT_bind_ok.mp hrun
    cases hsize
    split at hrest
    · cases hrest
    · rename_i hle
      cases hrest
      exact Nat.not_lt.mp hle

theorem classValueAmong_bounded (name : String) (count : Nat) : Bounded (classValueAmong name count) := by
  induction count with
  | zero => exact Bounded.none
  | succ count ih =>
      refine Bounded.bind Local.u32 fun offset => Bounded.bind Local.u16 fun nameLen => ?_
      refine Bounded.bind Local.u16 fun shapeLen => Bounded.bind (Local.string _) fun fname => ?_
      refine Bounded.bind (Local.aligned (by decide)) fun _ => ?_
      split
      · exact classValueWithinShape_bounded
      · exact Bounded.bind (Shape.decodeAt_local _) fun s => Bounded.bind (Local.aligned (by decide)) fun _ => ih

theorem classValueSlot_bounded {body : List UInt8} {name : String} {p n : Nat} {m : Bool}
    (h : classValueSlot body name = .ok (some (p, n, m))) : p + n ≤ body.length := by
  have hbounded : Bounded (classValueIn name) := by
    refine Bounded.bind TypeHeader.decode_local fun h => ?_
    split
    · exact Bounded.none
    · exact classValueAmong_bounded name _
  rw [classValueSlot, Decoder.run] at h
  cases hrun : classValueIn name ⟨body, 0⟩ with
  | error e =>
      rw [hrun] at h
      cases h
  | ok q =>
      obtain ⟨ans, r'⟩ := q
      rw [hrun] at h
      cases h
      exact hbounded ⟨body, 0⟩ p n m r' (Nat.zero_le _) hrun

end BStackRaii
