import BStackRaii.Proof.Registry
/-!
# Descriptors of one layout

What `layouts_match` compares, said of the two descriptors and not of what is left of them: they agree in
everything but the values of their mutable class variables, at any nesting. Descriptors that agree and give those
values one length are encoded in one number of bytes, or neither of them is.
-/

namespace BStackRaii

namespace Shape

mutual

/-- The shapes are the same, and `R` relates the values of their mutable class variables. -/
def Agrees (R : List UInt8 → List UInt8 → Prop) : Shape → Shape → Prop
  | pod width, pod width' => width = width'
  | owned tag, owned tag' => tag = tag'
  | strong tag, strong tag' => tag = tag'
  | weak tag, weak tag' => tag = tag'
  | ref tag, ref tag' => tag = tag'
  | embed tag, embed tag' => tag = tag'
  | foreign tag kind, foreign tag' kind' => tag = tag' ∧ kind = kind'
  | option inner, option inner' => inner.Agrees R inner'
  | array n inner, array n' inner' => n = n' ∧ inner.Agrees R inner'
  | vec inner, vec inner' => inner.Agrees R inner'
  | tuple items, tuple items' => ItemsAgree R items items'
  | classVar true inner value, classVar true inner' value' => inner.Agrees R inner' ∧ R value value'
  | classVar false inner value, classVar false inner' value' => inner.Agrees R inner' ∧ value = value'
  | _, _ => False

def ItemsAgree (R : List UInt8 → List UInt8 → Prop) : List Shape → List Shape → Prop
  | [], [] => True
  | s :: rest, s' :: rest' => s.Agrees R s' ∧ ItemsAgree R rest rest'
  | _, _ => False

end

end Shape

def AnyValues (_ _ : List UInt8) : Prop := True

def SameLength (value value' : List UInt8) : Prop := value'.length = value.length

section Agrees

variable (R : List UInt8 → List UInt8 → Prop)

structure RttiField.Agrees (f g : RttiField) : Prop where
  name : f.name = g.name
  offset : f.offset = g.offset
  shape : f.shape.Agrees R g.shape

structure RttiVariant.Agrees (v w : RttiVariant) : Prop where
  name : v.name = w.name
  discValue : v.discValue = w.discValue
  fields : List.Forall₂ (RttiField.Agrees R) v.fields w.fields

structure RttiEnum.Agrees (e e' : RttiEnum) : Prop where
  discWidth : e.discWidth = e'.discWidth
  discOff : e.discOff = e'.discOff
  payloadOff : e.payloadOff = e'.payloadOff
  variants : List.Forall₂ (RttiVariant.Agrees R) e.variants e'.variants

def RttiBody.Agrees : RttiBody → RttiBody → Prop
  | .struct fields, .struct fields' => List.Forall₂ (RttiField.Agrees R) fields fields'
  | .enum e, .enum e' => e.Agrees R e'
  | _, _ => False

structure RttiType.Agrees (ty ty' : RttiType) : Prop where
  tag : ty.tag = ty'.tag
  name : ty.name = ty'.name
  rc : ty.rc = ty'.rc
  weak : ty.weak = ty'.weak
  ctrlTag : ty.ctrlTag = ty'.ctrlTag
  ondiskSize : ty.ondiskSize = ty'.ondiskSize
  body : ty.body.Agrees R ty'.body

end Agrees

/-! ### What `layouts_match` says -/

namespace Shape

mutual

theorem strip_eq_iff : ∀ a b : Shape, a.strip = b.strip ↔ a.Agrees AnyValues b
  | pod _, b | owned _, b | strong _, b | weak _, b | ref _, b | embed _, b | foreign _ _, b => by
      cases b <;> simp [strip, Agrees]
  | option inner, b | vec inner, b => by
      cases b <;> simp [strip, Agrees, strip_eq_iff inner]
  | array n inner, b => by
      cases b <;> simp [strip, Agrees, strip_eq_iff inner]
  | tuple items, b => by
      cases b <;> simp [strip, Agrees, stripItems_eq_iff items]
  | classVar true inner value, b | classVar false inner value, b => by
      cases b with
      | classVar mutable' inner' value' =>
          cases mutable' <;> simp [strip, Agrees, AnyValues, strip_eq_iff inner]
      | _ => simp [strip, Agrees]

theorem stripItems_eq_iff : ∀ as bs : List Shape, stripItems as = stripItems bs ↔ ItemsAgree AnyValues as bs
  | [], bs => by
      cases bs <;> simp [stripItems, ItemsAgree]
  | a :: as, bs => by
      cases bs <;> simp [stripItems, ItemsAgree, strip_eq_iff a, stripItems_eq_iff as]

end

end Shape

theorem RttiField.strip_eq_iff (f g : RttiField) : f.strip = g.strip ↔ f.Agrees AnyValues g := by
  obtain ⟨name, offset, shape⟩ := f
  obtain ⟨name', offset', shape'⟩ := g
  rw [RttiField.strip, RttiField.strip, RttiField.mk.injEq]
  constructor
  · rintro ⟨hname, hoffset, hshape⟩
    exact ⟨hname, hoffset, (Shape.strip_eq_iff _ _).mp hshape⟩
  · rintro ⟨hname, hoffset, hshape⟩
    exact ⟨hname, hoffset, (Shape.strip_eq_iff _ _).mpr hshape⟩

theorem map_eq_map_iff {α β : Type} {f : α → β} {R : α → α → Prop} (h : ∀ a b, f a = f b ↔ R a b) (as bs : List α) :
    as.map f = bs.map f ↔ List.Forall₂ R as bs := by
  rw [← List.forall₂_eq_eq_eq, List.forall₂_map_left_iff, List.forall₂_map_right_iff]
  simp only [h]

theorem RttiVariant.strip_eq_iff (v w : RttiVariant) :
    ({ v with fields := v.fields.map RttiField.strip } : RttiVariant) =
    { w with fields := w.fields.map RttiField.strip }
      ↔ v.Agrees AnyValues w := by
  obtain ⟨name, discValue, fields⟩ := v
  obtain ⟨name', discValue', fields'⟩ := w
  rw [RttiVariant.mk.injEq, map_eq_map_iff RttiField.strip_eq_iff]
  constructor
  · rintro ⟨hname, hdisc, hfields⟩
    exact ⟨hname, hdisc, hfields⟩
  · rintro ⟨hname, hdisc, hfields⟩
    exact ⟨hname, hdisc, hfields⟩

theorem RttiType.strip_body_eq_iff (ty ty' : RttiType) :
    ty.strip.body = ty'.strip.body ↔ ty.body.Agrees AnyValues ty'.body := by
  simp only [RttiType.strip]
  cases ty.body with
  | struct fields =>
      cases ty'.body with
      | struct fields' => rw [RttiBody.struct.injEq, map_eq_map_iff RttiField.strip_eq_iff, RttiBody.Agrees]
      | enum e' => simp [RttiBody.Agrees]
  | enum e =>
      cases ty'.body with
      | struct fields' => simp [RttiBody.Agrees]
      | enum e' =>
          rw [RttiBody.enum.injEq, RttiEnum.mk.injEq, map_eq_map_iff RttiVariant.strip_eq_iff, RttiBody.Agrees]
          constructor
          · rintro ⟨hwidth, hoff, hpayload, hvariants⟩
            exact ⟨hwidth, hoff, hpayload, hvariants⟩
          · rintro ⟨hwidth, hoff, hpayload, hvariants⟩
            exact ⟨hwidth, hoff, hpayload, hvariants⟩

/-- Two types lay out their instances alike just when they agree but for the values of mutable class variables. -/
theorem layoutsMatch_iff (ty ty' : RttiType) : layoutsMatch ty ty' = true ↔ ty.Agrees AnyValues ty' := by
  rw [layoutsMatch, beq_iff_eq]
  constructor
  · intro h
    have hbody := (RttiType.strip_body_eq_iff ty ty').mp (congrArg RttiType.body h)
    rw [RttiType.strip, RttiType.strip] at h
    obtain ⟨htag, hname, hrc, hweak, hctrl, hsize, -⟩ := RttiType.mk.inj h
    exact ⟨htag, hname, hrc, hweak, hctrl, hsize, hbody⟩
  · rintro ⟨htag, hname, hrc, hweak, hctrl, hsize, hagree⟩
    have hbody := (RttiType.strip_body_eq_iff ty ty').mpr hagree
    calc ty.strip = { ty with body := ty.strip.body } := rfl
      _ = { ty' with body := ty'.strip.body } := by rw [hbody, htag, hname, hrc, hweak, hctrl, hsize]
      _ = ty'.strip := rfl

namespace RttiType.Agrees

variable {a b c : RttiType}

theorem refl (ty : RttiType) : ty.Agrees AnyValues ty := (layoutsMatch_iff ty ty).mp (beq_self_eq_true _)

theorem symm (h : a.Agrees AnyValues b) : b.Agrees AnyValues a := by
  rw [← layoutsMatch_iff, layoutsMatch, beq_iff_eq] at h ⊢
  exact h.symm

theorem trans (h : a.Agrees AnyValues b) (h' : b.Agrees AnyValues c) : a.Agrees AnyValues c := by
  rw [← layoutsMatch_iff, layoutsMatch, beq_iff_eq] at h h' ⊢
  exact h.trans h'

end RttiType.Agrees

/-! ### Encodings of one length -/

namespace Shape

theorem itemsAgree_length {R : List UInt8 → List UInt8 → Prop} :
    ∀ {as bs : List Shape}, ItemsAgree R as bs → as.length = bs.length
  | [], [], _ => rfl
  | _ :: as, _ :: bs, h => by rw [List.length_cons, List.length_cons, itemsAgree_length h.2]

mutual

theorem Agrees.mirrors : ∀ {a b : Shape}, a.Agrees SameLength b → Mirrors a.encode b.encode
  | pod _, pod _, rfl | owned _, owned _, rfl | strong _, strong _, rfl | weak _, weak _, rfl | ref _, ref _, rfl
  | embed _, embed _, rfl => (Mirrors.emit rfl).bind (Mirrors.emit rfl)
  | foreign _ _, foreign _ _, ⟨rfl, rfl⟩ => (Mirrors.emit rfl).bind ((Mirrors.emit rfl).bind (Mirrors.emit rfl))
  | option _, option _, h => by
      rw [encode, encode]
      exact (Mirrors.emit rfl).bind (Agrees.mirrors h)
  | array _ _, array _ _, ⟨rfl, h⟩ => by
      rw [encode, encode]
      exact (Mirrors.emit rfl).bind ((Mirrors.emit rfl).bind (Agrees.mirrors h))
  | vec _, vec _, h => by
      rw [encode, encode]
      exact (Mirrors.emit rfl).bind (Agrees.mirrors h)
  | tuple _, tuple _, h => by
      rw [encode, encode, itemsAgree_length h]
      exact (Mirrors.emit rfl).bind (Mirrors.given fun _ _ => (Mirrors.emit rfl).bind (ItemsAgree.mirrors h))
  | classVar true _ _, classVar true _ _, ⟨h, hvalue⟩ => by
      rw [encode, encode, hvalue]
      exact (Mirrors.emit rfl).bind ((Mirrors.emit rfl).bind ((Agrees.mirrors h).bind
        (Mirrors.given fun _ _ => (Mirrors.emit rfl).bind (Mirrors.emit hvalue))))
  | classVar false _ _, classVar false _ _, ⟨h, rfl⟩ => by
      rw [encode, encode]
      exact (Mirrors.emit rfl).bind ((Mirrors.emit rfl).bind ((Agrees.mirrors h).bind
        (Mirrors.given fun _ _ => (Mirrors.emit rfl).bind (Mirrors.emit rfl))))

theorem ItemsAgree.mirrors : ∀ {as bs : List Shape}, ItemsAgree SameLength as bs →
    Mirrors (encodeItems as) (encodeItems bs)
  | [], [], _ => Mirrors.pure
  | _ :: _, _ :: _, ⟨h, hrest⟩ => by
      rw [encodeItems, encodeItems]
      exact (Agrees.mirrors h).bind (ItemsAgree.mirrors hrest)

end

end Shape

theorem RttiField.Agrees.mirrors {f g : RttiField} (h : f.Agrees SameLength g) : Mirrors f.encode g.encode := by
  unfold RttiField.encode
  rw [h.name, h.offset]
  apply h.shape.mirrors.alone
  intro bs bs' hlen
  rw [hlen]
  refine Mirrors.given fun nameLen _ => Mirrors.given fun shapeLen _ => ?_
  refine (Mirrors.emit rfl).bind ((Mirrors.emit rfl).bind ((Mirrors.emit rfl).bind ((Mirrors.emit rfl).bind ?_)))
  exact (Mirrors.align 4).bind ((Mirrors.emit hlen).bind (Mirrors.align 4))

theorem RttiVariant.Agrees.mirrors {v w : RttiVariant} (h : v.Agrees SameLength w) : Mirrors v.encode w.encode := by
  unfold RttiVariant.encode
  rw [h.name, h.discValue, h.fields.length_eq]
  refine (Mirrors.align 8).bind ((Mirrors.emit rfl).bind (Mirrors.given fun _ _ => Mirrors.given fun _ _ => ?_))
  refine (Mirrors.emit rfl).bind ((Mirrors.emit rfl).bind ((Mirrors.emit rfl).bind ((Mirrors.emit rfl).bind ?_)))
  exact (Mirrors.align 8).bind (Mirrors.each (h.fields.imp fun _ _ hf => hf.mirrors))

namespace RttiType.Agrees

variable {ty ty' : RttiType}

theorem header_eq (h : ty.Agrees SameLength ty') (count : UInt16) : ty.header count = ty'.header count := by
  unfold RttiType.header RttiType.flags
  rw [h.name, h.rc, h.weak, h.ctrlTag, h.ondiskSize]
  have hbody := h.body
  cases hty : ty.body with
  | struct fields =>
      cases hty' : ty'.body with
      | struct fields' => rfl
      | enum e' =>
          rw [hty, hty'] at hbody
          exact hbody.elim
  | enum e =>
      cases hty' : ty'.body with
      | struct fields' =>
          rw [hty, hty'] at hbody
          exact hbody.elim
      | enum e' =>
          rw [hty, hty'] at hbody
          simp only [RttiBody.isEnum, hbody.discWidth, hbody.discOff, hbody.payloadOff]

theorem body_mirrors (h : ty.Agrees SameLength ty') : ty.count = ty'.count ∧ Mirrors ty.encodeBody ty'.encodeBody := by
  unfold RttiType.count RttiType.encodeBody
  have hbody := h.body
  cases hty : ty.body with
  | struct fields =>
      cases hty' : ty'.body with
      | struct fields' =>
          rw [hty, hty'] at hbody
          have hfields : List.Forall₂ (RttiField.Agrees SameLength) fields fields' := hbody
          constructor
          · dsimp only
            rw [hfields.length_eq]
          · exact Mirrors.each (hfields.imp fun _ _ hf => hf.mirrors)
      | enum e' =>
          rw [hty, hty'] at hbody
          exact hbody.elim
  | enum e =>
      cases hty' : ty'.body with
      | struct fields' =>
          rw [hty, hty'] at hbody
          exact hbody.elim
      | enum e' =>
          rw [hty, hty'] at hbody
          constructor
          · dsimp only
            rw [hbody.variants.length_eq]
          · exact Mirrors.each (hbody.variants.imp fun _ _ hv => hv.mirrors)

/-- The record of the one is as long as the record of the other. -/
theorem encodeType {body : List UInt8} (h : ty.Agrees SameLength ty') (hbody : BStackRaii.encodeType ty = .ok body) :
    ∃ body', BStackRaii.encodeType ty' = .ok body' ∧ body'.length = body.length := by
  obtain ⟨hcount, hmirrors⟩ := h.body_mirrors
  refine Mirrors.run ?_ hbody
  unfold RttiType.encode
  rw [hcount, h.name]
  refine Mirrors.given fun count _ => Mirrors.given fun nameLen _ => Mirrors.bind ?_ hmirrors
  rw [h.header_eq]
  unfold TypeHeader.encode
  refine (Mirrors.emit rfl).bind ((Mirrors.emit rfl).bind ((Mirrors.emit rfl).bind ((Mirrors.emit rfl).bind ?_)))
  refine (Mirrors.emit rfl).bind ((Mirrors.emit rfl).bind ((Mirrors.emit rfl).bind ((Mirrors.emit rfl).bind ?_)))
  exact (Mirrors.emit rfl).bind (Mirrors.align 8)

end RttiType.Agrees

end BStackRaii
