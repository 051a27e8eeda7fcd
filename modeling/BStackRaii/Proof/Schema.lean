import BStackRaii.Model.Schema
/-!
# When a schema record can be read back

The encoder accepts more than the decoder does. `RttiType.Readable` is what the decoder adds: a
record decodes to the type it was encoded from exactly when the type has it.
-/

namespace BStackRaii

/-! ### Shapes the decoder accepts -/

namespace Shape

mutual

/-- The shape nests within `levels` levels and its vectors hold leaves. -/
def Readable : Shape → Nat → Prop
  | _, 0 => False
  | option inner, levels + 1 => inner.Readable levels
  | array _ inner, levels + 1 => inner.Readable levels
  | vec inner, levels + 1 => inner.isVecElementLeaf = true ∧ inner.Readable levels
  | tuple items, levels + 1 => ItemsReadable items levels
  | classVar _ inner _, levels + 1 => inner.Readable levels
  | _, _ + 1 => True

def ItemsReadable : List Shape → Nat → Prop
  | [], _ => True
  | s :: rest, levels => s.Readable levels ∧ ItemsReadable rest levels

end

theorem itemsReadable_iff {items : List Shape} {levels : Nat} :
    ItemsReadable items levels ↔ ∀ s ∈ items, s.Readable levels := by
  induction items with
  | nil => simp [ItemsReadable]
  | cons s rest ih => simp [ItemsReadable, ih]

end Shape

/-! ### Every part of a record reads back -/

namespace Coded

variable {m : Nat} {α : Type}

theorem u8 (v : UInt8) (m : Nat) : Coded m (Encoder.u8 v) (need Reader.u8) v :=
  .emit (.u8 v) _ m

theorem u16 (v : UInt16) (m : Nat) : Coded m (Encoder.u16 v) (need Reader.u16) v :=
  .emit (.u16 v) _ m

theorem u32 (v : UInt32) (m : Nat) : Coded m (Encoder.u32 v) (need Reader.u32) v :=
  .emit (.u32 v) _ m

theorem u64 (v : UInt64) (m : Nat) : Coded m (Encoder.u64 v) (need Reader.u64) v :=
  .emit (.u64 v) _ m

theorem i64 (v : Int64) (m : Nat) : Coded m (Encoder.i64 v) (need Reader.i64) v :=
  .emit (.i64 v) _ m

theorem eightcc (cc : EightCC) (m : Nat) :
    Coded m (Encoder.eightcc cc) (need Reader.eightcc) cc := by
  have h := (Fetches.take cc.bytes).mapFst EightCC.ofBytes
  rw [cc.length_eq, EightCC.ofBytes_bytes] at h
  exact .emit h _ m

theorem bytes (bs : List UInt8) (m : Nat) :
    Coded m (Encoder.emit bs) (need (Reader.take bs.length)) bs := .emit (.take bs) _ m

theorem string (s : String) (m : Nat) :
    Coded m (Encoder.emit (utf8Bytes s)) (string (utf8Bytes s).length) s := by
  apply (bytes (utf8Bytes s) m).map
  rw [fromUtf8_utf8Bytes]

theorem aligned {a : Nat} (ha : 0 < a) (ham : a ∣ m) :
    Coded m (Encoder.align a) (BStackRaii.align a) () := .align ha ham _

end Coded

theorem toNat_of_tryU8 {n : Nat} {what limit : String} {v : UInt8}
    (h : tryU8 n what limit = .ok v) : v.toNat = n := by
  unfold tryU8 at h
  split at h
  · cases h
    simp only [UInt8.toNat_ofNat']
    omega
  · cases h

theorem toNat_of_tryU16 {n : Nat} {what limit : String} {v : UInt16}
    (h : tryU16 n what limit = .ok v) : v.toNat = n := by
  unfold tryU16 at h
  split at h
  · cases h
    simp only [UInt16.toNat_ofNat']
    omega
  · cases h

theorem toNat_of_tryU32 {n : Nat} {what limit : String} {v : UInt32}
    (h : tryU32 n what limit = .ok v) : v.toNat = n := by
  unfold tryU32 at h
  split at h
  · cases h
    simp only [UInt32.toNat_ofNat']
    omega
  · cases h

namespace Shape

theorem decodeAt_yields (levels : Nat) :
    Yields (decodeAt levels) fun s => s.Readable levels := by
  induction levels with
  | zero => exact Yields.throw _
  | succ levels ih =>
      refine Yields.bind (Yields.any _) fun tag _ => ?_
      unfold decodeTagged
      split
      iterate 6 exact (Yields.any _).bind fun _ _ => .pure trivial
      · refine (Yields.any _).bind fun cc _ => (Yields.any _).bind fun kb _ => ?_
        split
        · exact .pure trivial
        · exact .throw _
      · exact ih.bind fun inner hinner => .pure hinner
      · exact (Yields.any _).bind fun n _ => ih.bind fun inner hinner => .pure hinner
      · refine ih.bind fun inner hinner => ?_
        split
        case isTrue hleaf => exact .pure ⟨hleaf, hinner⟩
        case isFalse => exact .throw _
      · refine (Yields.any _).bind fun k _ => (ih.times _).bind fun items hitems => ?_
        exact .pure (itemsReadable_iff.mpr hitems)
      · refine (Yields.any _).bind fun _ _ => ih.bind fun inner hinner => ?_
        exact (Yields.any _).bind fun _ _ => (Yields.any _).bind fun _ _ => .pure hinner
      · exact .throw _

mutual

theorem coded : ∀ (s : Shape) (levels : Nat), s.Readable levels →
    Coded 1 s.encode (decodeAt levels) s
  | s, 0, h => by simp [Readable] at h
  | pod width, levels + 1, _ => (Coded.u8 0x00 1).bind ((Coded.u32 width 1).map rfl)
  | owned cc, levels + 1, _ => (Coded.u8 0x01 1).bind ((Coded.eightcc cc 1).map rfl)
  | strong cc, levels + 1, _ => (Coded.u8 0x02 1).bind ((Coded.eightcc cc 1).map rfl)
  | weak cc, levels + 1, _ => (Coded.u8 0x03 1).bind ((Coded.eightcc cc 1).map rfl)
  | ref cc, levels + 1, _ => (Coded.u8 0x04 1).bind ((Coded.eightcc cc 1).map rfl)
  | embed cc, levels + 1, _ => (Coded.u8 0x05 1).bind ((Coded.eightcc cc 1).map rfl)
  | foreign cc kind, levels + 1, _ =>
      (Coded.u8 0x06 1).bind ((Coded.eightcc cc 1).bind ((Coded.u8 kind.asU8 1).map (by
        rw [OwnershipKind.fromU8_asU8])))
  | option inner, levels + 1, h =>
      (Coded.u8 0x10 1).bind ((coded inner levels h).map rfl)
  | array n inner, levels + 1, h =>
      (Coded.u8 0x11 1).bind ((Coded.u32 n 1).bind ((coded inner levels h).map rfl))
  | vec inner, levels + 1, h =>
      (Coded.u8 0x12 1).bind ((coded inner levels h.2).map (if_pos h.1))
  | tuple items, levels + 1, h =>
      (Coded.u8 0x13 1).bind (.given fun arity harity => (Coded.u8 arity 1).bind (by
        rw [toNat_of_tryU8 harity]
        exact (coded_items items levels h).map rfl))
  | classVar mutable inner value, levels + 1, h =>
      (Coded.u8 0x20 1).bind ((Coded.u8 mutable.toUInt8 1).bind ((coded inner levels h).bind
        (.given fun len hlen => (Coded.u32 len 1).bind (by
          rw [toNat_of_tryU32 hlen]
          refine (Coded.bytes value 1).map ?_
          cases mutable <;> rfl))))

theorem coded_items : ∀ (items : List Shape) (levels : Nat), ItemsReadable items levels →
    Coded 1 (encodeItems items) ((decodeAt levels).times items.length) items
  | [], _, _ => .pure 1 []
  | s :: rest, levels, h => (coded s levels h.1).bind ((coded_items rest levels h.2).map rfl)

end

end Shape

/-! ### Fields, variants and types -/

/-- A decoder may ask where it stands before and after a value. -/
theorem Coded.measured {m : Nat} {α β : Type} {bytes : List UInt8} {e : Encoder RttiError Unit}
    {d : Decoder RttiError α} {v : α} {b : β} {k : Nat → α → Nat → Decoder RttiError β}
    (hd : Coded m (Encoder.emit bytes) d v) (hk : ∀ p, Coded m e (k p v (p + bytes.length)) b) :
    Coded m (Encoder.emit bytes >>= fun _ => e)
      (Decoder.position >>= fun p => d >>= fun v => Decoder.position >>= fun q => k p v q) b := by
  intro w w' hrun
  obtain ⟨own, hown, hbytes⟩ := hd w (w ++ bytes) rfl
  obtain rfl : bytes = own := List.append_cancel_left hown
  have hrest : e (w ++ bytes) = .ok ((), w') := hrun
  obtain ⟨rest, rfl, -⟩ := hk 0 _ _ hrest
  refine ⟨bytes ++ rest, by rw [List.append_assoc], fun pre hpre => ?_⟩
  obtain ⟨hwrites, hreads⟩ := hbytes pre hpre
  obtain ⟨rest', hrest', hall⟩ := hk pre.length _ _ hrest
  obtain rfl : rest = rest' := List.append_cancel_left hrest'
  have hnext : (pre ++ bytes).length ≡ (w ++ bytes).length [MOD m] := by
    rw [List.length_append, List.length_append]
    exact hpre.add_right _
  obtain ⟨hwrites', hreads'⟩ := hall (pre ++ bytes) hnext
  refine ⟨hwrites.bind hwrites', ?_⟩
  have hpos : Reads (Decoder.position : Decoder RttiError Nat) (pre ++ bytes) []
      (pre.length + bytes.length) := by
    have h := Reads.position (ε := RttiError) (pre ++ bytes)
    rwa [List.length_append] at h
  have hend := hpos.bind (f := fun q => k pre.length v q) (by rwa [List.append_nil])
  exact (Reads.position pre).bind (by
    rw [List.append_nil]
    exact hreads.bind hend)

def RttiField.Readable (f : RttiField) : Prop := f.shape.Readable MAX_SHAPE_DEPTH

def RttiVariant.Readable (v : RttiVariant) : Prop := ∀ f ∈ v.fields, f.Readable

def RttiBody.Readable : RttiBody → Prop
  | .struct fields => ∀ f ∈ fields, f.Readable
  | .enum e => (0 < e.discWidth ∧ e.discWidth ≤ 8) ∧ ∀ v ∈ e.variants, v.Readable

/-- What a record must hold for the decoder to give it back. -/
structure RttiType.Readable (ty : RttiType) : Prop where
  ctrl : ty.ctrlTag.isSome = ty.weak
  body : ty.body.Readable

theorem RttiField.coded {f : RttiField} (h : f.Readable) :
    Coded 4 f.encode RttiField.decode f := by
  refine .given fun sw hsw => .given fun nameLen hname => .given fun shapeLen hshape => ?_
  refine (Coded.u32 f.offset 4).bind ((Coded.u16 nameLen 4).bind ((Coded.u16 shapeLen 4).bind ?_))
  rw [toNat_of_tryU16 hname]
  refine (Coded.string f.name 4).bind ((Coded.aligned (by decide) (by decide)).bind ?_)
  refine Coded.measured ((f.shape.coded _ h).alone hsw) fun p => ?_
  rw [if_neg (by rw [toNat_of_tryU16 hshape]; omega)]
  exact (Coded.aligned (by decide) (by decide)).map rfl

theorem RttiVariant.coded {v : RttiVariant} (h : v.Readable) :
    Coded 8 v.encode RttiVariant.decode v := by
  refine (Coded.aligned (by decide) (by decide)).bind ((Coded.i64 v.discValue 8).bind ?_)
  refine .given fun nameLen hname => .given fun count hcount => ?_
  refine (Coded.u16 nameLen 8).bind ((Coded.u16 count 8).bind ((Coded.u32 0 8).bind ?_))
  rw [toNat_of_tryU16 hname, toNat_of_tryU16 hcount]
  refine (Coded.string v.name 8).bind ((Coded.aligned (by decide) (by decide)).bind ?_)
  exact (Coded.each fun f hf => (f.coded (h f hf)).weaken (by decide)).map rfl

theorem TypeHeader.coded (h : TypeHeader) {nameLen : UInt16}
    (hname : nameLen.toNat = (utf8Bytes h.name).length) :
    Coded 8 (h.encode nameLen) TypeHeader.decode h := by
  refine (Coded.u8 h.flags 8).bind ((Coded.u8 h.discWidth 8).bind ((Coded.u16 nameLen 8).bind ?_))
  refine (Coded.u16 h.count 8).bind ((Coded.u16 h.discOff 8).bind ?_)
  refine (Coded.u16 h.payloadOff 8).bind ((Coded.u64 h.ondiskSize 8).bind ?_)
  refine (Coded.eightcc h.ctrlTag 8).bind ?_
  rw [hname]
  exact (Coded.string h.name 8).bind ((Coded.aligned (by decide) (by decide)).map rfl)

namespace RttiType

variable {ty : RttiType}

theorem flag_enum (ty : RttiType) : (ty.flags &&& FLAG_ENUM != 0) = ty.body.isEnum := by
  unfold flags
  cases ty.body.isEnum <;> cases ty.rc <;> cases ty.weak <;> decide

theorem flag_rc (ty : RttiType) : (ty.flags &&& FLAG_RC != 0) = ty.rc := by
  unfold flags
  cases ty.body.isEnum <;> cases ty.rc <;> cases ty.weak <;> decide

theorem flag_weak (ty : RttiType) : (ty.flags &&& FLAG_WEAK != 0) = ty.weak := by
  unfold flags
  cases ty.body.isEnum <;> cases ty.rc <;> cases ty.weak <;> decide

theorem body_coded {count : UInt16} (h : ty.body.Readable) (hcount : ty.count = .ok count) :
    Coded 8 ty.encodeBody (RttiBody.decode (ty.header count)) ty.body := by
  have henum := ty.flag_enum
  cases hbody : ty.body with
  | struct fields =>
      rw [hbody] at henum h
      simp only [RttiType.count, hbody] at hcount
      rw [RttiBody.decode, if_neg (by rw [header, henum]; exact Bool.false_ne_true), encodeBody, hbody]
      show Coded 8 _ (RttiField.decode.times count.toNat >>= _) _
      rw [toNat_of_tryU16 hcount]
      exact (Coded.each fun f hf => (f.coded (h f hf)).weaken (by decide)).map rfl
  | enum e =>
      rw [hbody] at henum h
      simp only [RttiType.count, hbody] at hcount
      rw [RttiBody.decode, if_pos (by rw [header, henum]; rfl), encodeBody, hbody]
      have hwidth : (ty.header count).discWidth = e.discWidth := by simp only [header, hbody]
      rw [hwidth, if_neg (by simpa using h.1.2), if_neg (by
        intro h0
        exact absurd h.1.1 (by rw [h0]; decide))]
      show Coded 8 _ (RttiVariant.decode.times count.toNat >>= _) _
      rw [toNat_of_tryU16 hcount]
      apply (Coded.each fun v hv => v.coded (h.2 v hv)).map
      simp only [header, hbody]

theorem coded (h : ty.Readable) : Coded 8 ty.encode (RttiType.decode ty.tag) ty := by
  refine .given fun count hcount => .given fun nameLen hname => ?_
  refine ((ty.header count).coded (toNat_of_tryU16 hname)).bind ?_
  apply (body_coded h.body hcount).map
  have hctrl : (if ty.weak then some (ty.ctrlTag.getD .zero) else none) = ty.ctrlTag := by
    rw [← h.ctrl]
    cases ty.ctrlTag <;> rfl
  simp only [header, flag_rc, flag_weak, hctrl]

end RttiType

/-! ### What the decoder gives back -/

theorem RttiField.decode_yields : Yields RttiField.decode RttiField.Readable := by
  unfold RttiField.decode
  refine (Yields.any _).bind fun _ _ => (Yields.any _).bind fun _ _ => ?_
  refine (Yields.any _).bind fun _ _ => (Yields.any _).bind fun _ _ => ?_
  refine (Yields.any _).bind fun _ _ => (Yields.any _).bind fun _ _ => ?_
  refine (Shape.decodeAt_yields MAX_SHAPE_DEPTH).bind fun shape hshape => ?_
  refine (Yields.any _).bind fun _ _ => ?_
  split
  · exact .throw _
  · exact (Yields.any _).bind fun _ _ => .pure hshape

theorem RttiVariant.decode_yields : Yields RttiVariant.decode RttiVariant.Readable := by
  unfold RttiVariant.decode
  refine (Yields.any _).bind fun _ _ => (Yields.any _).bind fun _ _ => ?_
  refine (Yields.any _).bind fun _ _ => (Yields.any _).bind fun _ _ => ?_
  refine (Yields.any _).bind fun _ _ => (Yields.any _).bind fun _ _ => ?_
  refine (Yields.any _).bind fun _ _ => ?_
  exact (RttiField.decode_yields.times _).bind fun fields hfields => .pure hfields

theorem RttiBody.decode_yields (h : TypeHeader) : Yields (RttiBody.decode h) RttiBody.Readable := by
  unfold RttiBody.decode
  split
  · split
    · exact .throw _
    · split
      · exact .throw _
      · rename_i hle hne
        refine (RttiVariant.decode_yields.times _).bind fun variants hvariants => .pure ?_
        exact ⟨⟨UInt8.pos_iff_ne_zero.mpr hne, UInt8.not_lt.mp hle⟩, hvariants⟩
  · exact (RttiField.decode_yields.times _).bind fun fields hfields => .pure hfields

theorem RttiType.decode_yields (tag : EightCC) :
    Yields (RttiType.decode tag) RttiType.Readable := by
  unfold RttiType.decode
  refine (Yields.any _).bind fun h _ => (RttiBody.decode_yields h).bind fun body hbody => ?_
  refine .pure ⟨?_, hbody⟩
  show (if h.flags &&& FLAG_WEAK != 0 then some h.ctrlTag else none).isSome = _
  cases h.flags &&& FLAG_WEAK != 0 <;> rfl

/-- Encoding asks for less than decoding: a record gives its type back just when the type is
readable. -/
theorem decode_of_encode {ty : RttiType} {body : List UInt8} (h : encodeType ty = .ok body) :
    decodeType ty.tag body = .ok ty ↔ ty.Readable := by
  constructor
  · exact fun hdecode => (RttiType.decode_yields ty.tag).of_run hdecode
  · exact fun hty => (RttiType.coded hty).alone_run h

end BStackRaii
